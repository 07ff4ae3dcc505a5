import SnippetRunner.Source.Region

/-
  Statement ends. A walk over the glyphs of a script counts open brackets; outside all brackets
  a semicolon or a line end is a boundary between statements. A semicolon after the closing
  parenthesis of a call spread over several lines is none, and neither is a line end after which
  the next significant character goes on with the statement.
-/
namespace SnippetRunner.Source

open SnippetRunner.Text

/-- Characters that continue a statement onto the next line. -/
def continuationChars : List Char :=
  ['.', ',', '?', ':', '+', '-', '*', '/', '%', '&', '|', '^', '<', '>', '=', '!', '(', '[', '}']

def isContinuation (c : Char) : Bool := continuationChars.contains c

def isOpening (c : Char) : Bool := c = '(' || c = '[' || c = '{'

def isClosing (c : Char) : Bool := c = ')' || c = ']' || c = '}'

/-- The next significant character of a text. -/
def nextSignificant (gs : List Glyph) : Option Char := (gs.find? Glyph.isSignificant).map Glyph.char

/-- Whether a statement that reaches the end of its line goes on in `following`. -/
def continuesIn (following : List Glyph) : Bool := (nextSignificant following).any isContinuation

/-- What the walk knows at a place: the lines on which the open brackets stand, innermost first,
the current line, and, if the last significant character closed a call at depth zero, the line
on which that call was opened. -/
structure Nesting where
  opened : List Nat
  line : Nat
  callClosed : Option Nat
  deriving DecidableEq, Repr

namespace Nesting

def initial : Nesting := ⟨[], 0, none⟩

def depth (n : Nesting) : Nat := n.opened.length

/-- Whether the last significant character closed a call that was opened on an earlier line. -/
def afterMultilineCall (n : Nesting) : Bool := n.callClosed.any (· < n.line)

/-- Whether `g`, followed by `following`, ends a statement. -/
def isBoundary (n : Nesting) (g : Glyph) (following : List Glyph) : Bool :=
  g.isCode && n.opened.isEmpty
    && ((g.char = ';' && !n.afterMultilineCall) || (g.char = '\n' && !continuesIn following))

/-- The call closed by `g`, if `g` is a parenthesis that leaves no bracket open. -/
def callClosedBy (n : Nesting) (g : Glyph) : Option Nat :=
  match n.opened with
  | [line] => if g.isCode && g.char = ')' then some line else none
  | _ => none

def openedAfter (n : Nesting) (g : Glyph) : List Nat :=
  if g.isCode && isOpening g.char then n.line :: n.opened
  else if g.isCode && isClosing g.char then n.opened.tail
  else n.opened

def step (n : Nesting) (g : Glyph) : Nesting where
  opened := n.openedAfter g
  line := if g.char = '\n' then n.line + 1 else n.line
  callClosed := if g.isSignificant then n.callClosedBy g else n.callClosed

end Nesting

/-- A glyph with what the walk found out about it: how many brackets are open before and after
it, whether it ends a statement, and whether no significant character of its statement stands
before it. -/
structure Cell where
  glyph : Glyph
  depth : Nat
  depthAfter : Nat
  boundary : Bool
  fresh : Bool
  deriving DecidableEq, Repr

namespace Cell

def char (c : Cell) : Char := c.glyph.char

def isCode (c : Cell) : Bool := c.glyph.isCode

def isComment (c : Cell) : Bool := c.glyph.isComment

def isSignificant (c : Cell) : Bool := c.glyph.isSignificant

end Cell

/-- Whether the place after `g` is the start of a statement, given whether the place before is. -/
def freshAfter (fresh boundary : Bool) (g : Glyph) : Bool :=
  boundary || (fresh && !g.isSignificant)

def cellsFrom (n : Nesting) (fresh : Bool) : List Glyph → List Cell
  | [] => []
  | g :: rest =>
    let boundary := n.isBoundary g rest
    let after := n.step g
    ⟨g, n.depth, after.depth, boundary, fresh⟩
      :: cellsFrom after (freshAfter fresh boundary g) rest

theorem map_glyph_cellsFrom (n : Nesting) (fresh : Bool) (gs : List Glyph) :
    (cellsFrom n fresh gs).map Cell.glyph = gs := by
  induction gs generalizing n fresh with
  | nil => rfl
  | cons g rest ih => simp [cellsFrom, ih]

/-- The cells of a script. -/
def cells (source : List Char) : List Cell := cellsFrom .initial true (glyphs source)

theorem map_glyph_cells (source : List Char) : (cells source).map Cell.glyph = glyphs source :=
  map_glyph_cellsFrom _ _ _

theorem map_char_cells (source : List Char) : (cells source).map Cell.char = source := by
  have h := map_char_glyphs source
  rw [← map_glyph_cells, List.map_map] at h
  exact h

/-- The byte offsets of the boundaries of a script, ascending. -/
def boundaries (source : List Char) : List Nat :=
  offsetsOf Cell.char Cell.boundary 0 (cells source)

/-- The number of brackets open at the start of every line, and at the end of the script. -/
def lineDepths (source : List Char) : List Nat :=
  0 :: ((cells source).filter (·.char = '\n')).map Cell.depthAfter
    ++ [(((cells source).getLast?).map Cell.depthAfter).getD 0]

/-- The first place from `low` up to `high` that does not pass, or `high`. It is found by halving,
so places have to pass up to some place, and none behind it. -/
def firstFailing (passes : Nat → Bool) (low high : Nat) : Nat :=
  if low < high then
    let middle := low + (high - low) / 2
    if passes middle then firstFailing passes (middle + 1) high
    else firstFailing passes low middle
  else low
termination_by high - low

/-- Whether an entry of an ascending table lies from `start` up to `stop`. -/
def hasEntryIn (table : Array Nat) (start stop : Nat) : Bool :=
  table[firstFailing (fun i => table[i]?.any (· < start)) 0 table.size]?.any (· < stop)

/-- Whether a boundary of a script stands from offset `start` up to `stop`. -/
def hasBoundaryIn (source : List Char) (start stop : Nat) : Bool :=
  hasEntryIn (boundaries source).toArray start stop

end SnippetRunner.Source
