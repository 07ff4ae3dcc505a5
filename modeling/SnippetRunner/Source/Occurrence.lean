import SnippetRunner.Source.Region
import SnippetRunner.Text.Split
import SnippetRunner.Text.Word

/-
  Occurrences of words in the code of a script. Strings, template text and comments are passed
  over; only the first character of an occurrence has to be code.
-/
namespace SnippetRunner.Source

open SnippetRunner.Text

/-- Whether `p` holds at some code character of a text. `p` is given what stands before the
character, last first, and the text from the character on. -/
def anyInCode (p : (before text : List Char) → Bool) (before : List Char) :
    List Char → List Region → Bool
  | c :: text, region :: regions =>
    (region = .code && p before (c :: text)) || anyInCode p (c :: before) text regions
  | _, _ => false

/-- Whether `p` holds at some code character of `source`. -/
def occursInCode (p : (before text : List Char) → Bool) (source : List Char) : Bool :=
  anyInCode p [] source (regions source)

/-- A word may begin after `before`. -/
def wordBegins (before : List Char) : Bool := wordEnds before

/-- What follows `word`, if it begins and ends as a word at the head of `text`. -/
def afterWord? (word before text : List Char) : Option (List Char) :=
  if wordBegins before then (dropStart? word text).filter wordEnds else none

/-- Whether the last character before is a dot, so that a name there is that of a member. -/
def isMember (before : List Char) : Bool := before.head? = some '.'

end SnippetRunner.Source
