import SnippetRunner.Text.Blank

/-
  Blanks and line ends as scripts of the isolated engine have them.
-/
namespace SnippetRunner.Engine

open SnippetRunner.Text

/-- The Unicode blanks, the byte order mark among them and the next-line character not. -/
def isScriptBlank (c : Char) : Bool := c = '\uFEFF' || (isBlank c && c ≠ '\u0085')

/-- The line separator and the paragraph separator. -/
def isSeparator (c : Char) : Bool := c = '\u2028' || c = '\u2029'

def endsLine (c : Char) : Bool := c = '\n' || c = '\r' || isSeparator c

def trimScript (s : List Char) : List Char :=
  ((s.dropWhile isScriptBlank).reverse.dropWhile isScriptBlank).reverse

end SnippetRunner.Engine
