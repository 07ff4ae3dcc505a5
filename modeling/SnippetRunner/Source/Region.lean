import SnippetRunner.Text.Blank
import SnippetRunner.Text.Bytes

/-
  Lexical regions of a script. One pass tells code from quoted strings, template text and
  comments; the expressions inside a template are code again, nested to any depth. The lexer is
  a machine that reads one character and sees the next, so it gives one region a character.
  Regular expression literals are not recognised.
-/
namespace SnippetRunner.Source

open SnippetRunner.Text

inductive Region where
  | code
  | string
  | template
  | lineComment
  | blockComment
  deriving DecidableEq, Repr, Inhabited

def Region.isComment : Region → Bool
  | .lineComment | .blockComment => true
  | _ => false

/-- A character of a script with its region. -/
structure Glyph where
  char : Char
  region : Region
  deriving DecidableEq, Repr

namespace Glyph

def isCode (g : Glyph) : Bool := g.region = .code

def isComment (g : Glyph) : Bool := g.region.isComment

/-- Significant characters carry meaning: they are neither blank nor part of a comment. -/
def isSignificant (g : Glyph) : Bool := !g.isComment && !isAsciiBlank g.char

end Glyph

/-- What the lexer is inside of. A two-character mark has a mode for its second character. -/
inductive Mode where
  | code
  | quoted (quote : Char)
  | quotedEscape (quote : Char)
  | template
  | templateEscape
  /-- Before the brace of a dollar sign and brace. -/
  | substitutionOpen
  | lineComment
  | commentOpen
  | blockComment
  | commentClose
  deriving DecidableEq, Repr

/-- `braces` counts the open braces of the code, and `substitutions` holds, innermost first, how
many were open where each unfinished template expression began. -/
structure Lexer where
  mode : Mode
  substitutions : List Nat
  braces : Nat
  deriving DecidableEq, Repr

namespace Lexer

def initial : Lexer := ⟨.code, [], 0⟩

/-- A closing brace ends a template expression if it is at the depth where one began, and a
block otherwise. -/
def closeBrace (l : Lexer) : Region × Lexer :=
  match l.substitutions with
  | depth :: outer =>
    if depth = l.braces then (.template, ⟨.template, outer, l.braces⟩)
    else (.code, { l with braces := l.braces - 1 })
  | [] => (.code, { l with braces := l.braces - 1 })

def stepCode (l : Lexer) (c : Char) (next : Option Char) : Region × Lexer :=
  if c = '/' && next = some '/' then (.lineComment, { l with mode := .lineComment })
  else if c = '/' && next = some '*' then (.blockComment, { l with mode := .commentOpen })
  else if c = '\'' || c = '"' then (.string, { l with mode := .quoted c })
  else if c = '\x60' then (.template, { l with mode := .template })
  else if c = '{' then (.code, { l with braces := l.braces + 1 })
  else if c = '}' then l.closeBrace
  else (.code, l)

/-- An unescaped line end ends a string that was never closed, and is code. -/
def stepQuoted (l : Lexer) (quote c : Char) : Region × Lexer :=
  if c = '\\' then (.string, { l with mode := .quotedEscape quote })
  else if c = quote then (.string, { l with mode := .code })
  else if c = '\n' then (.code, { l with mode := .code })
  else (.string, l)

def stepTemplate (l : Lexer) (c : Char) (next : Option Char) : Region × Lexer :=
  if c = '\\' then (.template, { l with mode := .templateEscape })
  else if c = '\x60' then (.template, { l with mode := .code })
  else if c = '$' && next = some '{' then (.template, { l with mode := .substitutionOpen })
  else (.template, l)

/-- Reads `c`, with `next` the character after it. -/
def step (l : Lexer) (c : Char) (next : Option Char) : Region × Lexer :=
  match l.mode with
  | .code => l.stepCode c next
  | .quoted quote => l.stepQuoted quote c
  | .quotedEscape quote => (.string, { l with mode := .quoted quote })
  | .template => l.stepTemplate c next
  | .templateEscape => (.template, { l with mode := .template })
  | .substitutionOpen => (.template, ⟨.code, l.braces :: l.substitutions, l.braces⟩)
  | .lineComment =>
    if c = '\n' then (.code, { l with mode := .code }) else (.lineComment, l)
  | .commentOpen => (.blockComment, { l with mode := .blockComment })
  | .blockComment =>
    if c = '*' && next = some '/' then (.blockComment, { l with mode := .commentClose })
    else (.blockComment, l)
  | .commentClose => (.blockComment, { l with mode := .code })

/-- The glyphs of a text that is reached in state `l`. -/
def glyphsFrom (l : Lexer) : List Char → List Glyph
  | [] => []
  | c :: rest => ⟨c, (l.step c rest.head?).1⟩ :: glyphsFrom (l.step c rest.head?).2 rest

theorem map_char_glyphsFrom (l : Lexer) (s : List Char) :
    (l.glyphsFrom s).map Glyph.char = s := by
  induction s generalizing l with
  | nil => rfl
  | cons c rest ih => simp [glyphsFrom, ih]

end Lexer

/-- The characters of `source` with their regions. -/
def glyphs (source : List Char) : List Glyph := Lexer.initial.glyphsFrom source

/-- The region of every character of `source`. -/
def regions (source : List Char) : List Region := (glyphs source).map Glyph.region

theorem map_char_glyphs (source : List Char) : (glyphs source).map Glyph.char = source :=
  Lexer.map_char_glyphsFrom _ source

theorem length_regions (source : List Char) : (regions source).length = source.length := by
  rw [regions, List.length_map, ← List.length_map Glyph.char, map_char_glyphs]

/-- The glyphs of the bytes of `source`. The lexer asks only about ASCII characters, whose bytes
stand for themselves, so a character's bytes all lie in its region. -/
def byteGlyphs (source : List Char) : List Glyph := glyphs (bytesOf source)

/-- The place of the nearest significant glyph before `place`. -/
def significantBefore? (gs : List Glyph) (place : Nat) : Option Nat :=
  let before := (gs.take place).reverse
  (before.findIdx? Glyph.isSignificant).map fun i => before.length - 1 - i

/-- The place of the nearest significant glyph at or after `place`. -/
def significantFrom? (gs : List Glyph) (place : Nat) : Option Nat :=
  ((gs.drop place).findIdx? Glyph.isSignificant).map (place + ·)

/-- Whether the glyph at `place` is code; the end of the text counts as code. -/
def isCodeAt (gs : List Glyph) (place : Nat) : Bool := gs[place]?.all Glyph.isCode

def isCommentAt (gs : List Glyph) (place : Nat) : Bool := gs[place]?.any Glyph.isComment

end SnippetRunner.Source
