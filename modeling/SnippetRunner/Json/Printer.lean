import SnippetRunner.Json

/-
  JSON text. Only quotes, backslashes and control characters are escaped; everything else stands
  for itself. Compact text has no blanks; indented text has two spaces a level.
-/
namespace SnippetRunner.Json

def hexDigit (n : Nat) : Char := (Nat.digitChar (n % 16))

/-- A character inside a quoted string. -/
def escaped (c : Char) : List Char :=
  if c = '"' then ['\\', '"']
  else if c = '\\' then ['\\', '\\']
  else if c = '\x08' then ['\\', 'b']
  else if c = '\x0c' then ['\\', 'f']
  else if c = '\n' then ['\\', 'n']
  else if c = '\r' then ['\\', 'r']
  else if c = '\t' then ['\\', 't']
  else if c.toNat < 32 then
    ['\\', 'u', '0', '0', hexDigit (c.toNat / 16), hexDigit c.toNat]
  else [c]

def quoted (s : String) : List Char := '"' :: s.toList.flatMap escaped ++ ['"']

mutual

def compactChars : Json → List Char
  | null => "null".toList
  | bool b => (if b then "true" else "false").toList
  | number n => n.text.toList
  | string s => quoted s
  | array items => '[' :: itemsCompact items ++ [']']
  | object fields => '{' :: fieldsCompact fields ++ ['}']

def itemsCompact : List Json → List Char
  | [] => []
  | [item] => compactChars item
  | item :: rest => compactChars item ++ ',' :: itemsCompact rest

def fieldsCompact : List (String × Json) → List Char
  | [] => []
  | [(key, value)] => quoted key ++ ':' :: compactChars value
  | (key, value) :: rest => quoted key ++ ':' :: compactChars value ++ ',' :: fieldsCompact rest

end

/-- The text of a value on one line. -/
def compact (j : Json) : String := String.ofList (compactChars j)

def newLine (level : Nat) : List Char := '\n' :: List.replicate (2 * level) ' '

mutual

def indentedChars (level : Nat) : Json → List Char
  | array [] => ['[', ']']
  | array items => '[' :: itemsIndented (level + 1) items ++ newLine level ++ [']']
  | object [] => ['{', '}']
  | object fields => '{' :: fieldsIndented (level + 1) fields ++ newLine level ++ ['}']
  | null => "null".toList
  | bool b => (if b then "true" else "false").toList
  | number n => n.text.toList
  | string s => quoted s

def itemsIndented (level : Nat) : List Json → List Char
  | [] => []
  | [item] => newLine level ++ indentedChars level item
  | item :: rest => newLine level ++ indentedChars level item ++ ',' :: itemsIndented level rest

def fieldsIndented (level : Nat) : List (String × Json) → List Char
  | [] => []
  | [(key, value)] => newLine level ++ quoted key ++ ':' :: ' ' :: indentedChars level value
  | (key, value) :: rest =>
    newLine level ++ quoted key ++ ':' :: ' ' :: indentedChars level value
      ++ ',' :: fieldsIndented level rest

end

/-- The text of a value over several lines. -/
def indented (j : Json) : String := String.ofList (indentedChars 0 j)

end SnippetRunner.Json
