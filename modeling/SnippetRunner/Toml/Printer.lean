import SnippetRunner.Config.Value
import SnippetRunner.Toml.Text

/-
  TOML text of tables of scalars. A string is written with as little escaping as possible: as it
  is, between single quotes, between three double quotes, between three single quotes; only a
  string with control characters, or one that none of these can hold, is written with escapes.
-/
namespace SnippetRunner.Toml

open SnippetRunner.Text

/-- The length of the longest run of `c` in a text, after a run of `run`. -/
def longestRun (c : Char) (run : Nat) : List Char → Nat
  | [] => run
  | d :: rest => if d = c then longestRun c (run + 1) rest else max run (longestRun c 0 rest)

/-- Control characters other than tabs and ends of lines. -/
def isControl (c : Char) : Bool := !isPlain c && c ≠ '\n'

def upperHexDigit (n : Nat) : Char := (Nat.digitChar (n % 16)).toUpper

/-- A character with an escape where strings need one; `lines` tells whether the string may have
ends of lines. -/
def escaped (lines : Bool) (c : Char) : List Char :=
  if c = '\x08' then ['\\', 'b']
  else if c = '\t' then ['\\', 't']
  else if c = '\n' then if lines then ['\n'] else ['\\', 'n']
  else if c = '\x0c' then ['\\', 'f']
  else if c = '\r' then ['\\', 'r']
  else if c = '\\' then ['\\', '\\']
  else if isPlain c then [c]
  else ['\\', 'u', '0', '0', upperHexDigit (c.toNat / 16), upperHexDigit c.toNat]

/-- A text with escapes. Only the third of three double quotes in a row is escaped on several
lines, and every one on a single line; `run` double quotes stand before the text. -/
def escapedText (lines : Bool) (run : Nat) : List Char → List Char
  | [] => []
  | '"' :: rest =>
    if run < (if lines then 2 else 0) then '"' :: escapedText lines (run + 1) rest
    else '\\' :: '"' :: escapedText lines 0 rest
  | c :: rest => escaped lines c ++ escapedText lines 0 rest

def between (quotes : List Char) (hasLines : Bool) (body : List Char) : List Char :=
  let start := if hasLines && quotes.length = 3 then ['\n'] else []
  quotes ++ start ++ body ++ quotes

/-- A string in the first form that can hold it. -/
def stringText (s : List Char) : List Char :=
  let hasLines := s.contains '\n'
  let hasBackslash := s.contains '\\'
  let hasControl := s.any isControl
  let doubles := longestRun '"' 0 s
  let singles := longestRun '\'' 0 s
  if !hasControl && !hasBackslash && doubles = 0 && !hasLines then
    between ['"'] hasLines (escapedText false 0 s)
  else if !hasControl && singles = 0 && !hasLines then between ['\''] hasLines s
  else if !hasControl && !hasBackslash && doubles ≤ 2 then
    between ['"', '"', '"'] hasLines (escapedText true 0 s)
  else if !hasControl && singles ≤ 2 then between ['\'', '\'', '\''] hasLines s
  else if hasLines then between ['"', '"', '"'] hasLines (escapedText true 0 s)
  else between ['"'] hasLines (escapedText false 0 s)

/-- The text of a scalar; whole numbers have 64 bits with a sign. -/
def scalarText? : ConfigValue → Option (List Char)
  | .bool b => some (if b then "true" else "false").toList
  | .integer n => if fitsSigned n then some (toString n).toList else none
  | .text s => some (stringText s.toList)
  | _ => none

def pairText? (pair : String × ConfigValue) : Option (List Char) :=
  (scalarText? pair.2).map fun value => pair.1.toList ++ " = ".toList ++ value ++ ['\n']

/-- A table with its header. -/
def sectionText? (table : String × ConfigValue) : Option (List Char) := do
  let pairs ← table.2.fields.mapM pairText?
  return '[' :: table.1.toList ++ "]\n".toList ++ pairs.flatten

/-- Tables of scalars, with empty lines between them. -/
def sectionsText? (tables : List (String × ConfigValue)) : Option (List Char) := do
  let sections ← tables.mapM sectionText?
  return (sections.intersperse ['\n']).flatten

end SnippetRunner.Toml
