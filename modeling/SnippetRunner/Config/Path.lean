import SnippetRunner.Text.Numeral
import SnippetRunner.Text.Split

/-
  Paths of settings: a name, and then names after points and indices in brackets.
-/
namespace SnippetRunner

open SnippetRunner.Text

inductive SettingStep where
  | field (name : String)
  | item (index : Int)
  deriving DecidableEq, Repr

abbrev SettingPath := List SettingStep

namespace SettingPath

def isNameChar (c : Char) : Bool := c.isAlphanum || c = ' ' || c = '_' || c = '-'

/-- Reads a name, which is not empty. -/
def readName (s : List Char) : Option (SettingStep × List Char) :=
  let name := s.takeWhile isNameChar
  if name.isEmpty then none else some (.field (String.ofList name), s.dropWhile isNameChar)

/-- Reads an index up to its closing bracket. -/
def readIndex (s : List Char) : Option (SettingStep × List Char) := do
  let (text, rest) := (s.takeWhile (· ≠ ']'), s.dropWhile (· ≠ ']'))
  if text.head? = some '+' then none
  let index ← integer? text
  return (.item index, ← dropStart? [']'] rest)

/-- Reads the steps after the first up to the end of the text. -/
def readSteps : Nat → List Char → Option SettingPath
  | _, [] => some []
  | 0, _ => none
  | fuel + 1, c :: s => do
    let (step, rest) ← if c = '.' then readName s else if c = '[' then readIndex s else none
    return step :: (← readSteps fuel rest)

/-- The path that a text is, if it is one. -/
def read? (s : List Char) : Option SettingPath := do
  let (step, rest) ← readName s
  return step :: (← readSteps rest.length rest)

/-- The path that a key is; a key that is no path is one name. -/
def ofKey (key : String) : SettingPath := (read? key.toList).getD [.field key]

end SettingPath

end SnippetRunner
