import SnippetRunner.Proofs.Script.CommentedScript
import SnippetRunner.Proofs.Script.ReturnedLines

/-
  A captured line in its place. What the capture pass does to one line is read off the states of
  lexer and walk where the line begins; `exists_capturedLine` finds these states, and the wrapped
  line in the instrumented text.
-/
namespace SnippetRunner.Script

open SnippetRunner.Text SnippetRunner.Source

/-- Line `k` of a text that is read from `l` and walked from `p`, if it is captured: what stands
before and behind it, and the states in which it is reached. -/
structure CapturedLine (l : Lexer) (p : Progress) (text : List Char) (k : Nat) where
  before : List Char
  line : List Char
  rest : List Char
  join : text = before ++ (line ++ rest)
  ended : before = [] ∨ before.getLast? = some '\n'
  number : newlines before = k
  first : FirstLine line rest
  lexer : Lexer
  lexer_eq : lexer = l.run before none
  place : Progress
  place_eq : place = p.run (l.glyphsTo before none)
  parts : Parts (lexer.glyphsTo line none)
  mode : lexer.mode = .code
  captures : Captures parts place true ((lexer.run line none).glyphsFrom rest)
  atLine : (lines (walk l p text))[k]? = some (Line.ofPiece
    (place.cellsTo (lexer.glyphsTo line none) ((lexer.run line none).glyphsFrom rest)))

section

variable {l : Lexer} {p : Progress} {line rest : List Char} {fromCode : Bool} {k : Nat}

/-- The first line, if it is captured. -/
def CapturedLine.ofFirst (h : FirstLine line rest) (parts : Parts (l.glyphsTo line none))
    (hmode : l.mode = .code) (hcap : Captures parts p true ((l.run line none).glyphsFrom rest)) :
    CapturedLine l p (line ++ rest) 0 where
  before := []
  line := line
  rest := rest
  join := rfl
  ended := Or.inl rfl
  number := rfl
  first := h
  lexer := l
  lexer_eq := rfl
  place := p
  place_eq := rfl
  parts := parts
  mode := hmode
  captures := hcap
  atLine := by rw [h.lines_walk, List.getElem?_cons_zero]

/-- A later line, found behind the first. -/
def CapturedLine.ofLater (h : FirstLine line rest)
    (c : CapturedLine (l.run line none) (p.run (l.glyphsTo line none)) rest k) :
    CapturedLine l p (line ++ rest) (k + 1) :=
  have hne : rest ≠ [] := by
    rw [c.join]
    simp [c.first.cut.ne_nil (List.mem_singleton_self _)]
  have hbefore : FirstLine line c.before := ⟨h.cut, fun _ => h.ended hne⟩
  { before := line ++ c.before
    line := c.line
    rest := c.rest
    join := by rw [List.append_assoc, ← c.join]
    ended := by
      right
      rcases c.ended with hnil | hlast
      · rw [hnil, List.append_nil]
        exact h.ended hne
      · rw [List.getLast?_append, hlast]
        rfl
    number := by
      rw [newlines, List.count_append, ← newlines, ← newlines, h.newlines_eq_one hne, c.number,
        Nat.add_comm]
    first := c.first
    lexer := c.lexer
    lexer_eq := by rw [c.lexer_eq, Lexer.run_append, hbefore.run]
    place := c.place
    place_eq := by
      have hglyphs : l.glyphsTo (line ++ c.before) none =
          l.glyphsTo line none ++ (l.run line none).glyphsTo c.before none := by
        rw [← Lexer.glyphsFrom_eq_glyphsTo, hbefore.glyphsFrom, Lexer.glyphsFrom_eq_glyphsTo]
      rw [hglyphs, Progress.run_append]
      exact c.place_eq
    parts := c.parts
    mode := c.mode
    captures := c.captures
    atLine := by
      rw [h.lines_walk, List.getElem?_cons_succ]
      exact c.atLine }

/-- A line that the pass captures has its place, and stands wrapped in the instrumented text. -/
theorem exists_capturedLine {text : List Char} (number : Nat)
    (hmode : fromCode = true → l.mode = .code)
    (h : CapturesLine fromCode (lines (walk l p text)) k) :
    ∃ c : CapturedLine l p text k,
      (splitAfter (·.char = '\n') (l.glyphsFrom (instrumentedFrom number fromCode l p text)))[k]? =
        some (c.lexer.glyphsTo (wrapped c.parts (number + k)) none) := by
  induction text using lines_induction generalizing l p fromCode k number with
  | nil => exact h.elim
  | @line line rest hline ih =>
    obtain ⟨parts⟩ := hline.nonempty_parts l
    have hnext : (l.glyphsTo line none).getLast?.all Glyph.isCode = true →
        (l.run line none).mode = .code :=
      mode_of_getLast? (hline.cut.ne_nil (List.mem_singleton_self _))
    obtain ⟨more, hmore⟩ : ∃ more, more = instrumentedFrom (number + 1)
        ((l.glyphsTo line none).getLast?.all Glyph.isCode) (l.run line none)
        (p.run (l.glyphsTo line none)) rest := ⟨_, rfl⟩
    have hempty : rest = [] → more = [] := by
      rintro rfl
      exact hmore
    have hkept : FirstLine line more := ⟨hline.cut, fun hne => hline.ended fun e => hne (hempty e)⟩
    have hchars := Lexer.map_char_glyphsFrom (l.run line none) more
    cases k with
    | zero =>
      have hcap := (hline.capturesLine_zero parts fromCode).mp h
      obtain rfl := hcap.fromCode
      refine ⟨.ofFirst hline parts (hmode rfl) hcap, ?_⟩
      rw [hline.glyphsFrom_captured parts (hmode rfl) hcap, ← hmore,
        (hline.wrapped parts number hempty).splitAfter_glyphs hchars]
      rfl
    | succ k =>
      rw [hline.capturesLine_succ] at h
      obtain ⟨c, hc⟩ := ih (number + 1) hnext h
      rw [← hmore] at hc
      refine ⟨.ofLater hline c, ?_⟩
      have hlater : (splitAfter (·.char = '\n')
          (l.glyphsFrom (instrumentedFrom number fromCode l p (line ++ rest))))[k + 1]? =
          (splitAfter (·.char = '\n') ((l.run line none).glyphsFrom more))[k]? := by
        by_cases hcap : Captures parts p fromCode ((l.run line none).glyphsFrom rest)
        · rw [hline.glyphsFrom_captured parts (hmode hcap.fromCode) hcap, ← hmore,
            (hline.wrapped parts number hempty).splitAfter_glyphs hchars, List.getElem?_cons_succ]
        · rw [hline.glyphsFrom_kept parts hcap, ← hmore, hkept.splitAfter_glyphs hchars,
            List.getElem?_cons_succ]
      rw [hlater, hc, Nat.add_right_comm, Nat.add_assoc]
      rfl

namespace CapturedLine

variable {source text : List Char}

/-- The glyphs of the text are those before the line, those of the line and those behind it. -/
theorem glyphs_eq (c : CapturedLine l p text k) :
    l.glyphsFrom text = l.glyphsTo c.before none ++
      (c.lexer.glyphsTo c.line none ++ (c.lexer.run c.line none).glyphsFrom c.rest) := by
  calc l.glyphsFrom text = l.glyphsFrom (c.before ++ (c.line ++ c.rest)) := congrArg _ c.join
    _ = l.glyphsTo c.before none ++ c.lexer.glyphsFrom (c.line ++ c.rest) := by
      rw [glyphsFrom_of_feed l c.ended, ← c.lexer_eq]
    _ = _ := by rw [c.first.glyphsFrom]

/-- What is captured on the line is its expression. -/
theorem expression_of_mem (c : CapturedLine .initial .initial source k) {e : List Char}
    (h : (k + 1, e) ∈ (instrument source).captures) : e = c.parts.expression := by
  have hline := c.atLine
  rw [walk_initial] at hline
  obtain ⟨j, line, hj, hjk, hcap⟩ := mem_captures_iff.mp h
  obtain rfl : k = j := by omega
  obtain rfl := Option.some.inj (hj.symm.trans hline)
  rw [(Line.expression?_eq_some_iff.mp hcap).2]
  exact c.parts.expression_eq c.place _

end CapturedLine

end

end SnippetRunner.Script
