import SnippetRunner.Text.Split
import SnippetRunner.Text.Word

/-
  Lines that report an error: its kind, a colon and its message.
-/
namespace SnippetRunner

open SnippetRunner.Text

structure ErrorLine where
  kind : List Char
  message : List Char
  deriving DecidableEq, Repr

namespace ErrorLine

/-- Words that name a kind of error: a capital letter, and `Error` at the end. -/
def isKind (word : List Char) : Bool :=
  word.head?.any (fun c => 'A' ≤ c && c ≤ 'Z') && "Error".toList.isSuffixOf word.tail

/-- Reads a whole line; an uncaught error may be called so. -/
def ofLine? (line : List Char) : Option ErrorLine := do
  let line := (dropStart? "Uncaught ".toList line).getD line
  let kind := line.takeWhile isWord
  let message ← dropStart? ": ".toList (line.dropWhile isWord)
  if isKind kind then some ⟨kind, message⟩ else none

/-- The first line of a text that reports an error. -/
def find? (text : List Char) : Option ErrorLine :=
  (splitBetween (· = '\n') text).findSome? ofLine?

end ErrorLine

end SnippetRunner
