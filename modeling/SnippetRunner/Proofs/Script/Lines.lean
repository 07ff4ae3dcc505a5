import Mathlib.Data.List.DropRight
import Mathlib.Data.List.Sublists
import SnippetRunner.Script.Capture
import SnippetRunner.Proofs.Source.Progress

/-
  The physical lines of a script, and what the capture pass reads off one of them. The lines of
  the cells are the lines of the text; an expression is the part of its line between the
  indentation and what is dropped: a semicolon, blanks and comments.
-/
namespace SnippetRunner.Script

open SnippetRunner.Text SnippetRunner.Source

/-- The physical lines of a text, each with its line end. -/
def physicalLines (s : List Char) : List (List Char) := splitAfter (· = '\n') s

theorem lines_cells (source : List Char) :
    lines (cells source) = (cellLines source).map Line.ofPiece := rfl

theorem text_ofPiece (piece : List Cell) : (Line.ofPiece piece).text = piece.map Cell.char := by
  rw [Line.text, Line.cells_ofPiece]

theorem map_text_lines (source : List Char) :
    (lines (cells source)).map Line.text = physicalLines source := by
  have h := splitAfter_map (p := fun c : Cell => c.char = '\n') (q := (· = '\n'))
    (f := Cell.char) (fun _ => rfl) (cells source)
  rw [map_char_cells] at h
  rw [physicalLines, h, lines_cells, List.map_map, cellLines]
  exact List.map_congr_left fun piece _ => text_ofPiece piece

/-! ## The shape of a line -/

namespace Line

/-- The content of a line holds no line feed, and its end is empty or runs up to one. -/
structure Shaped (line : Line) : Prop where
  content : ∀ c ∈ line.content, c.char ≠ '\n'
  terminator : line.terminator = [] ∨ ∃ feed, feed.char = '\n' ∧
    (line.terminator = [feed] ∨ ∃ ret, ret.char = '\r' ∧ line.terminator = [ret, feed])

theorem ofPiece_unmarked {piece : List Cell} (h : ∀ c ∈ piece, c.char ≠ '\n') :
    ofPiece piece = ⟨piece, []⟩ := by
  unfold ofPiece
  split
  · next feed ret before hr =>
    have hm : feed ∈ piece := by rw [← List.mem_reverse, hr]; exact List.mem_cons_self ..
    rw [if_neg (h feed hm)]
  · next feed hr =>
    have hm : feed ∈ piece := by rw [← List.mem_reverse, hr]; exact List.mem_cons_self ..
    rw [if_neg (h feed hm)]
  · next hr =>
    rw [List.reverse_eq_nil_iff.mp hr]

theorem ofPiece_feed (init : List Cell) {feed : Cell} (hf : feed.char = '\n') :
    ofPiece (init ++ [feed]) = ⟨init, [feed]⟩ ∨
      ∃ before ret, init = before ++ [ret] ∧ ret.char = '\r' ∧
        ofPiece (init ++ [feed]) = ⟨before, [ret, feed]⟩ := by
  unfold ofPiece
  rw [List.reverse_append, List.reverse_singleton, List.singleton_append]
  cases hi : init.reverse with
  | nil =>
    left
    have : init = [] := List.reverse_eq_nil_iff.mp hi
    simp [hf, this]
  | cons ret before =>
    have e : init = before.reverse ++ [ret] := by
      rw [← List.reverse_reverse init, hi, List.reverse_cons]
    by_cases hr : ret.char = '\r'
    · right
      exact ⟨before.reverse, ret, e, hr, by simp [hf, hr]⟩
    · left
      simp [hf, hr, e]

theorem shaped_ofPiece {pieces : List (List Cell)} (h : Cut (·.char = '\n') pieces)
    {piece : List Cell} (hp : piece ∈ pieces) : (ofPiece piece).Shaped := by
  induction h with
  | nil => cases hp
  | unclosed _ hu =>
    obtain rfl := List.mem_singleton.mp hp
    have hu : ∀ c ∈ piece, c.char ≠ '\n' := fun c hc => by simpa using hu c hc
    rw [ofPiece_unmarked hu]
    exact ⟨hu, Or.inl rfl⟩
  | @closed init feed _ hu hm _ ih =>
    rcases List.mem_cons.mp hp with rfl | hp
    · have hu : ∀ c ∈ init, c.char ≠ '\n' := fun c hc => by simpa using hu c hc
      have hm : feed.char = '\n' := by simpa using hm
      rcases ofPiece_feed init hm with e | ⟨before, ret, rfl, hr, e⟩
      · rw [e]
        exact ⟨hu, Or.inr ⟨feed, hm, Or.inl rfl⟩⟩
      · rw [e]
        exact ⟨fun c hc => hu c (List.mem_append_left _ hc),
          Or.inr ⟨feed, hm, Or.inr ⟨ret, hr, rfl⟩⟩⟩
    · exact ih hp

/-- A line that others follow has a line end. -/
theorem terminator_ne_nil {earlier later : List (List Cell)} {piece : List Cell}
    (hcut : Cut (·.char = '\n') (earlier ++ piece :: later)) (hlater : later ≠ []) :
    (ofPiece piece).terminator ≠ [] := by
  intro hnil
  have hmem : piece ∈ earlier ++ piece :: later := by simp
  have hcells := cells_ofPiece piece
  rw [cells, hnil, List.append_nil] at hcells
  obtain ⟨c, hc⟩ := Option.isSome_iff_exists.mp (List.getLast?_isSome.mpr (hcut.ne_nil hmem))
  refine (shaped_ofPiece hcut hmem).content c (by rw [hcells]; exact List.mem_of_getLast? hc) ?_
  rw [List.append_cons] at hcut
  refine of_decide_eq_true (hcut.marked_of_getLast? hlater (a := c) ?_)
  rw [List.flatten_append, List.flatten_singleton, List.getLast?_append, hc]
  rfl

end Line

theorem shaped_of_mem_lines {cs : List Cell} {line : Line} (h : line ∈ lines cs) :
    line.Shaped := by
  obtain ⟨piece, hp, rfl⟩ := List.mem_map.mp h
  exact Line.shaped_ofPiece (cut_splitAfter _ _) hp

/-! ## Ends of texts -/

theorem upToLast_append {α : Type} (p : α → Bool) (s : List α) :
    ∃ after, s = upToLast p s ++ after ∧ ∀ a ∈ after, p a = false := by
  refine ⟨s.rtakeWhile (!p ·), (List.rdropWhile_append_rtakeWhile ..).symm, fun a ha => ?_⟩
  simpa using List.mem_rtakeWhile_imp ha

theorem getLast?_upToLast {α : Type} {p : α → Bool} {s : List α} {a : α}
    (h : (upToLast p s).getLast? = some a) : p a = true := by
  rw [upToLast, List.getLast?_reverse] at h
  have hp := List.head?_dropWhile_not (!p ·) s.reverse
  rw [h] at hp
  simpa using hp

/-- A list around the last of its elements that satisfy `p`. -/
theorem exists_upToLast {α : Type} {p : α → Bool} {s : List α} (h : s.any p = true) :
    ∃ init a after, upToLast p s = init ++ [a] ∧ s = init ++ [a] ++ after ∧ p a = true ∧
      ∀ b ∈ after, p b = false := by
  obtain ⟨after, hs, hafter⟩ := upToLast_append p s
  cases (upToLast p s).eq_nil_or_concat' with
  | inl hnil =>
    rw [hnil, List.nil_append] at hs
    obtain ⟨a, ha, hp⟩ := List.any_eq_true.mp h
    rw [hafter a (hs ▸ ha)] at hp
    cases hp
  | inr hlast =>
    obtain ⟨init, a, e⟩ := hlast
    exact ⟨init, a, after, e, by rw [← e, ← hs], getLast?_upToLast (by rw [e]; simp), hafter⟩

/-- A list from the first of its elements that satisfy `p`. -/
theorem exists_dropWhile {α : Type} {p : α → Bool} {s : List α} (h : s.any p = true) :
    ∃ a more, s.dropWhile (!p ·) = a :: more ∧ p a = true := by
  have hne : s.dropWhile (!p ·) ≠ [] := by
    intro hnil
    obtain ⟨a, ha, hp⟩ := List.any_eq_true.mp h
    simpa [hp] using List.dropWhile_eq_nil_iff.mp hnil a ha
  obtain ⟨a, more, e⟩ := List.exists_cons_of_ne_nil hne
  refine ⟨a, more, e, ?_⟩
  have hhead := List.head?_dropWhile_not (!p ·) s
  rw [e] at hhead
  simpa using hhead

theorem trimEnd_append (s : List Char) :
    ∃ blanks, s = trimEnd s ++ blanks ∧ ∀ c ∈ blanks, isBlank c = true :=
  ⟨s.rtakeWhile isBlank, (List.rdropWhile_append_rtakeWhile ..).symm,
    fun _ hc => List.mem_rtakeWhile_imp hc⟩

/-- What is cut off behind an expression: blanks, and at most one semicolon after them. -/
theorem expression_append (s : List Char) :
    ∃ blanks semicolon, s = trimEnd (dropSemicolon s) ++ (blanks ++ semicolon) ∧
      (∀ c ∈ blanks, isBlank c = true) ∧ (semicolon = [] ∨ semicolon = [';']) ∧
      (s.getLast? = some ';' → semicolon = [';']) := by
  obtain ⟨blanks, hblanks, h⟩ := trimEnd_append (dropSemicolon s)
  by_cases hlast : s.getLast? = some ';'
  · refine ⟨blanks, [';'], ?_, h, Or.inr rfl, fun _ => rfl⟩
    rw [← List.append_assoc, ← hblanks, dropSemicolon, if_pos hlast]
    exact (List.dropLast_append_getLast? ';' hlast).symm
  · refine ⟨blanks, [], ?_, h, Or.inl rfl, fun e => absurd e hlast⟩
    rw [List.append_nil, ← hblanks, dropSemicolon, if_neg hlast]

/-! ## What is cut off behind an expression -/

theorem isBlank_or_isComment_of_not_significant {c : Cell} (h : c.isSignificant = false) :
    isBlank c.char = true ∨ c.isComment = true := by
  unfold Cell.isSignificant Glyph.isSignificant at h
  cases hc : c.isComment with
  | true => exact Or.inr rfl
  | false =>
    left
    have hb : isAsciiBlank c.char = true := by
      unfold Cell.isComment at hc
      rw [Cell.char]
      simpa [hc] using h
    exact isBlank_of_isAsciiBlank hb

/-- Nothing but blanks, comments, and at most one semicolon outside of them. -/
def IsSpare (cs : List Cell) : Prop :=
  ((cs.filter fun c => !isBlank c.char && !c.isComment).map Cell.char).Sublist [';']

theorem IsSpare.append_of_not {cs after : List Cell} (h : IsSpare cs)
    (hafter : ∀ c ∈ after, c.isSignificant = false) : IsSpare (cs ++ after) := by
  have hnone : after.filter (fun c => !isBlank c.char && !c.isComment) = [] := by
    refine List.filter_eq_nil_iff.mpr fun c hc => ?_
    rcases isBlank_or_isComment_of_not_significant (hafter c hc) with hb | hb <;> simp [hb]
  rw [IsSpare, List.filter_append, hnone, List.append_nil]
  exact h

theorem isSpare_of_map_char {cs : List Cell} {blanks semicolon : List Char}
    (h : cs.map Cell.char = blanks ++ semicolon) (hblanks : ∀ c ∈ blanks, isBlank c = true)
    (hsemi : semicolon = [] ∨ semicolon = [';']) : IsSpare cs := by
  have hsub : ((cs.filter fun c => !isBlank c.char && !c.isComment).map Cell.char).Sublist
      ((cs.map Cell.char).filter (!isBlank ·)) := by
    rw [List.filter_map]
    refine List.Sublist.map _ ?_
    exact List.monotone_filter_right _ fun c hc => (Bool.and_eq_true_iff.mp hc).1
  refine hsub.trans ?_
  have hb : blanks.filter (!isBlank ·) = [] :=
    List.filter_eq_nil_iff.mpr fun c hc => by simp [hblanks c hc]
  rw [h, List.filter_append, hb, List.nil_append]
  rcases hsemi with rfl | rfl
  · exact List.nil_sublist _
  · exact List.filter_sublist

/-- The cells of an expression, and those that are cut off behind it. -/
theorem exists_body (cs : List Cell) :
    ∃ body dropped, cs = body ++ dropped ∧
      body.map Cell.char = trimEnd (dropSemicolon (cs.map Cell.char)) ∧ IsSpare dropped := by
  obtain ⟨blanks, semicolon, e, hblanks, hsemi, -⟩ := expression_append (cs.map Cell.char)
  obtain ⟨body, dropped, hcs, hbody, hdropped⟩ := List.map_eq_append_iff.mp e
  exact ⟨body, dropped, hcs, hbody, isSpare_of_map_char hdropped hblanks hsemi⟩

/-! ## The expression of a line -/

namespace Line

/-- What is left of a statement's text without its final semicolon and the blanks before it. -/
def expression (line : Line) : List Char := trimEnd (dropSemicolon (line.statement.map Cell.char))

/-- The line is captured, where `fromCode` tells that the line end before it is code. -/
structure IsCaptured (fromCode : Bool) (line : Line) (following : List Line) : Prop where
  topLevel : line.isTopLevel = true
  fromCode : fromCode = true
  endsInCode : line.terminator.head?.all Cell.isCode = true
  begins : line.beginsStatement = true
  form : isSkippedForm (line.statement.map Cell.char) = false
  single : line.isSingle = true
  ends : line.endsStatement following = true
  nonempty : line.expression ≠ []

theorem expression?_eq_some_iff {fromCode : Bool} {line : Line} {following : List Line}
    {e : List Char} :
    line.expression? fromCode following = some e ↔
      line.IsCaptured fromCode following ∧ e = line.expression := by
  unfold expression?
  dsimp only
  rw [← expression]
  constructor
  · intro h
    split at h
    · next hc =>
      simp only [Bool.and_eq_true, Bool.not_eq_true'] at hc
      obtain ⟨⟨⟨⟨⟨⟨⟨h1, h2⟩, h3⟩, h4⟩, h5⟩, h6⟩, h7⟩, h8⟩ := hc
      exact ⟨⟨h1, h2, h3, h4, h5, h6, h7, by simpa using h8⟩, (Option.some.inj h).symm⟩
    · cases h
  · rintro ⟨h, rfl⟩
    rw [if_pos]
    simp [h.topLevel, h.fromCode, h.endsInCode, h.begins, h.form, h.single, h.ends, h.nonempty]

theorem content_eq (line : Line) :
    ∃ after, line.content = line.indent ++ line.statement ++ after ∧
      ∀ c ∈ after, c.isSignificant = false := by
  obtain ⟨after, e, h⟩ :=
    upToLast_append Cell.isSignificant (line.content.dropWhile (isAsciiBlank ·.char))
  refine ⟨after, ?_, h⟩
  rw [indent, statement, List.append_assoc, ← e, List.takeWhile_append_dropWhile]

/-- The line says `e` and nothing more: `e` is its text from the first character that is not
blank, and after it stand only blanks, comments and at most one semicolon. -/
def SaysOnly (line : Line) (e : List Char) : Prop :=
  ∃ body rest, line.content = line.indent ++ body ++ rest ∧ body.map Cell.char = e ∧ e ≠ [] ∧
    e.head?.any isAsciiBlank = false ∧
    ((rest.filter fun c => !isBlank c.char && !c.isComment).map Cell.char).Sublist [';']

theorem head?_statement_not_blank (line : Line) :
    (line.statement.head?.map Cell.char).any isAsciiBlank = false := by
  obtain ⟨after, e, -⟩ :=
    upToLast_append Cell.isSignificant (line.content.dropWhile (isAsciiBlank ·.char))
  have h := List.head?_dropWhile_not (fun c : Cell => isAsciiBlank c.char) line.content
  cases hs : line.statement.head? with
  | none => rfl
  | some c =>
    have hc : (line.content.dropWhile (isAsciiBlank ·.char)).head? = some c := by
      rw [e, List.head?_append, ← statement, hs]
      rfl
    rw [hc] at h
    simpa using h

theorem terminator_not_significant {line : Line} (h : line.Shaped) :
    ∀ c ∈ line.terminator, c.isSignificant = false := by
  have hblank {c : Cell} (hc : c.char = '\n' ∨ c.char = '\r') : c.isSignificant = false := by
    refine Glyph.not_significant_of_isAsciiBlank ?_
    rcases hc with hc | hc <;> rw [show c.glyph.char = _ from hc] <;> decide
  rcases h.terminator with ht | ⟨feed, hfeed, ht | ⟨ret, hret, ht⟩⟩ <;> rw [ht]
  · simp
  · simpa using hblank (Or.inl hfeed)
  · simpa using ⟨hblank (Or.inr hret), hblank (Or.inl hfeed)⟩

/-- The statement of a line ends with the last significant character of the line. -/
theorem getLast?_statement {line : Line} (hshaped : line.Shaped) {init tail : List Cell}
    {c d : Cell} (h : line.cells = init ++ c :: tail) (hc : c.isSignificant = true)
    (htail : ∀ e ∈ tail, e.isSignificant = false) (hd : line.statement.getLast? = some d) :
    d = c := by
  obtain ⟨after, hcontent, hafter⟩ := line.content_eq
  obtain ⟨shown, hshown⟩ := List.getLast?_eq_some_iff.mp hd
  have hsplit : (line.indent ++ shown) ++ d :: (after ++ line.terminator) = init ++ c :: tail := by
    rw [← h, Line.cells, hcontent, hshown]
    simp
  refine eq_of_last hsplit (getLast?_upToLast hd) hc (fun e he => ?_) htail
  rcases List.mem_append.mp he with he | he
  · exact hafter e he
  · exact terminator_not_significant hshaped e he

/-- The statement of a line begins with the first character that is not blank; one that is no
comment is the first significant one. -/
theorem head?_statement {line : Line} {init tail : List Cell} {c d : Cell}
    (h : line.cells = init ++ c :: tail) (hc : c.isSignificant = true)
    (hinit : ∀ e ∈ init, e.isSignificant = false) (hd : line.statement.head? = some d)
    (hcomment : d.isComment = false) : d = c := by
  obtain ⟨after, hcontent, -⟩ := line.content_eq
  obtain ⟨more, hmore⟩ := List.head?_eq_some_iff.mp hd
  have hblank := line.head?_statement_not_blank
  rw [hd, Option.map_some, Option.any_some] at hblank
  have hd : d.isSignificant = true := by
    rw [Cell.isSignificant, Glyph.isSignificant, show d.glyph.isComment = false from hcomment,
      show isAsciiBlank d.glyph.char = false from hblank]
    rfl
  have hindent : ∀ e ∈ line.indent, e.isSignificant = false := by
    intro e he
    have hblank := List.mem_takeWhile_imp he
    exact Glyph.not_significant_of_isAsciiBlank hblank
  have hsplit : line.indent ++ d :: (more ++ after ++ line.terminator) = init ++ c :: tail := by
    rw [← h, Line.cells, hcontent, hmore]
    simp
  have hreverse : (more ++ after ++ line.terminator).reverse ++ d :: line.indent.reverse =
      tail.reverse ++ c :: init.reverse := by
    simpa using congrArg List.reverse hsplit
  refine eq_of_last (p := Cell.isSignificant) hreverse hd hc (fun e he => ?_) fun e he => ?_
  · exact hindent e (List.mem_reverse.mp he)
  · exact hinit e (List.mem_reverse.mp he)

theorem saysOnly_expression {line : Line} (h : line.expression ≠ []) :
    line.SaysOnly line.expression := by
  obtain ⟨after, hcontent, hafter⟩ := line.content_eq
  obtain ⟨body, dropped, hstatement, hbody, hspare⟩ := exists_body line.statement
  rw [← expression] at hbody
  refine ⟨body, dropped ++ after, ?_, hbody, h, ?_, hspare.append_of_not hafter⟩
  · rw [hcontent, hstatement]
    simp only [List.append_assoc]
  · have hhead := line.head?_statement_not_blank
    cases body with
    | nil => exact absurd hbody.symm h
    | cons c body =>
      rw [hstatement] at hhead
      rw [← hbody]
      exact hhead

end Line

/-! ## The instrumented lines -/

/-- Whether the line end before line `k` is code, given whether the one before all of them is. -/
def codeBefore (fromCode : Bool) (ls : List Line) : Nat → Bool
  | 0 => fromCode
  | k + 1 => ls[k]?.all fun line => line.cells.getLast?.all Cell.isCode

theorem instrumentFrom_getElem? (number : Nat) (fromCode : Bool) (ls : List Line) (k : Nat) :
    (instrumentFrom number fromCode ls)[k]? = ls[k]?.map fun line =>
      instrumentLine (number + k) (codeBefore fromCode ls k) line (ls.drop (k + 1)) := by
  induction ls generalizing number fromCode k with
  | nil => simp [instrumentFrom]
  | cons line ls ih =>
    cases k with
    | zero => simp [instrumentFrom, codeBefore]
    | succ k =>
      rw [instrumentFrom, List.getElem?_cons_succ, ih]
      have e : number + 1 + k = number + (k + 1) := by omega
      cases k with
      | zero => simp [codeBefore, e]
      | succ k => simp [codeBefore, e]

theorem length_instrumentFrom (number : Nat) (fromCode : Bool) (ls : List Line) :
    (instrumentFrom number fromCode ls).length = ls.length := by
  induction ls generalizing number fromCode with
  | nil => rfl
  | cons line ls ih => simp [instrumentFrom, ih]

end SnippetRunner.Script
