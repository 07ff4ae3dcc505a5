import SnippetRunner.Text.Numeral
import SnippetRunner.Text.Split

/-
  Strings and keys of TOML text. Every reader gives what it has read and the rest of the text.
-/
namespace SnippetRunner.Toml

open SnippetRunner.Text

/-- Characters that stand for themselves in strings and comments: no control character but the
tab. -/
def isPlain (c : Char) : Bool := c = '\t' || (32 ≤ c.toNat && c.toNat ≠ 127)

def isSpace (c : Char) : Bool := c = ' ' || c = '\t'

def skipSpaces (s : List Char) : List Char := s.dropWhile isSpace

/-- Passes over the end of a line, which is there. -/
def newline? : List Char → Option (List Char)
  | '\n' :: s => some s
  | '\r' :: '\n' :: s => some s
  | _ => none

/-! ## Escapes -/

/-- Reads the character with a code of `count` hexadecimal digits. -/
def readCode (count : Nat) (s : List Char) : Option (Char × List Char) := do
  let code ← hexNumber? (s.take count)
  if count ≤ s.length && code.isValidChar then some (Char.ofNat code, s.drop count)
  else none

/-- Reads what follows a backslash. -/
def readEscape : List Char → Option (Char × List Char)
  | 'b' :: s => some ('\x08', s)
  | 't' :: s => some ('\t', s)
  | 'n' :: s => some ('\n', s)
  | 'f' :: s => some ('\x0c', s)
  | 'r' :: s => some ('\r', s)
  | '"' :: s => some ('"', s)
  | '\\' :: s => some ('\\', s)
  | 'u' :: s => readCode 4 s
  | 'U' :: s => readCode 8 s
  | _ => none

/-! ## Strings on one line -/

/-- Reads a string with escapes up to its closing quote. -/
def readBasic : Nat → List Char → Option (List Char × List Char)
  | _ + 1, '"' :: s => some ([], s)
  | fuel + 1, '\\' :: s => do
    let (c, s) ← readEscape s
    let (text, s) ← readBasic fuel s
    return (c :: text, s)
  | fuel + 1, c :: s => do
    if isPlain c then
      let (text, s) ← readBasic fuel s
      return (c :: text, s)
    else none
  | _, _ => none

/-- Reads a string without escapes up to its closing quote. -/
def readLiteral : List Char → Option (List Char × List Char)
  | '\'' :: s => some ([], s)
  | c :: s => do
    if isPlain c then
      let (text, s) ← readLiteral s
      return (c :: text, s)
    else none
  | [] => none

/-! ## Strings over several lines -/

/-- Passes over blanks and ends of lines. -/
def skipBlankLines : List Char → List Char
  | '\r' :: '\n' :: s => skipBlankLines s
  | c :: s => if isSpace c || c = '\n' then skipBlankLines s else c :: s
  | [] => []

/-- The end of a string at a run of quotes: three of them close it, and up to two before these
belong to it. Gives the quotes that belong to it. -/
def closing? (quote : Char) (s : List Char) : Option (List Char × List Char) :=
  let run := min 5 (s.takeWhile (· = quote)).length
  if 3 ≤ run then some (List.replicate (run - 3) quote, s.drop run) else none

/-- Reads a string up to three closing quotes. A backslash at the end of a line removes all
blanks up to the next character. -/
def readLines (quote : Char) (escapes : Bool) :
    Nat → List Char → Option (List Char × List Char)
  | 0, _ => none
  | fuel + 1, s =>
    match closing? quote s, s with
    | some ended, _ => some ended
    | none, [] => none
    | none, c :: rest =>
      if escapes && c = '\\' then
        match newline? (skipSpaces rest) with
        | some after => readLines quote escapes fuel (skipBlankLines after)
        | none => do
          let (c, rest) ← readEscape rest
          let (text, rest) ← readLines quote escapes fuel rest
          return (c :: text, rest)
      else
        match newline? s with
        | some after => do
          let (text, rest) ← readLines quote escapes fuel after
          return ('\n' :: text, rest)
        | none =>
          if isPlain c then do
            let (text, rest) ← readLines quote escapes fuel rest
            return (c :: text, rest)
          else none

/-- Reads any string. An end of line right after three opening quotes does not count. -/
def readString (s : List Char) : Option (String × List Char) :=
  let fuel := s.length + 1
  let lines (quote : Char) (s : List Char) :=
    readLines quote (quote = '"') fuel ((newline? s).getD s)
  let text :=
    match s with
    | '"' :: '"' :: '"' :: s => lines '"' s
    | '\'' :: '\'' :: '\'' :: s => lines '\'' s
    | '"' :: s => readBasic fuel s
    | '\'' :: s => readLiteral s
    | _ => none
  text.map fun (text, rest) => (String.ofList text, rest)

/-! ## Keys -/

def isBareKey (c : Char) : Bool := c.isAlphanum || c = '_' || c = '-'

/-- Reads one part of a key. -/
def readKeyPart (s : List Char) : Option (String × List Char) :=
  let quoted (read : Option (List Char × List Char)) :=
    read.map fun (text, rest) => (String.ofList text, rest)
  match s with
  | '"' :: rest => quoted (readBasic (rest.length + 1) rest)
  | '\'' :: rest => quoted (readLiteral rest)
  | _ =>
    let key := s.takeWhile isBareKey
    if key.isEmpty then none else some (String.ofList key, s.dropWhile isBareKey)

/-- Reads parts with points between them. -/
def readKeyParts : Nat → List Char → Option (List String × List Char)
  | 0, _ => none
  | fuel + 1, s => do
    let (key, rest) ← readKeyPart s
    match skipSpaces rest with
    | '.' :: rest =>
      let (path, rest) ← readKeyParts fuel (skipSpaces rest)
      return (key :: path, rest)
    | rest => return ([key], rest)

/-- A key has at most this many parts. -/
def maxKeyParts : Nat := 79

/-- Reads a key. -/
def readKey (s : List Char) : Option (List String × List Char) := do
  let (path, rest) ← readKeyParts s.length s
  if path.length ≤ maxKeyParts then some (path, rest) else none

end SnippetRunner.Toml
