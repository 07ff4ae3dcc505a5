import SnippetRunner.Toml.Moment
import SnippetRunner.Toml.Number

/-
  TOML documents. A document is read line by line into a tree of tables that remembers how each
  table came to be, because that decides what may be added to it.
-/
namespace SnippetRunner.Toml

/-- How a table came to be. -/
inductive Origin where
  /-- On the way to a table that has a header. -/
  | passing
  | header
  | dottedKey
  deriving DecidableEq, Repr

inductive Node where
  | value (v : ConfigValue)
  /-- A date or a time. -/
  | moment (text : String)
  | list (items : List Node)
  /-- A table on one line, to which nothing can be added. -/
  | closed (fields : List (String × Node))
  | table (origin : Origin) (fields : List (String × Node))
  /-- The tables of one name that have headers of their own, in order. -/
  | tables (items : List (List (String × Node)))
  deriving Repr, Inhabited

abbrev Table := List (String × Node)

namespace Node

/-- A table whose first key is this one stands for the moment in the text under it. -/
def momentKey : String := "$__toml_private_datetime"

/-- The moment that the text of a node is. -/
def momentText? : Node → Option ConfigValue
  | value (.text s) => (moment? .text s.toList).map fun text => .text (String.ofList text)
  | _ => none

mutual

def toValue? : Node → Option ConfigValue
  | value v => some v
  | moment text => some (.text text)
  | list items => (itemValues? items).map .list
  | closed fields | table _ fields => tableValue? fields
  | tables items => (tableValues? items).map .list

def tableValue? : List (String × Node) → Option ConfigValue
  | [] => some (.table [])
  | (key, node) :: rest =>
    if key = momentKey then momentText? node
    else do return .table ((key, ← toValue? node) :: (← fieldValues? rest))

def fieldValues? : List (String × Node) → Option (List (String × ConfigValue))
  | [] => some []
  | (key, node) :: rest => do return (key, ← toValue? node) :: (← fieldValues? rest)

def itemValues? : List Node → Option (List ConfigValue)
  | [] => some []
  | node :: rest => do return (← toValue? node) :: (← itemValues? rest)

def tableValues? : List (List (String × Node)) → Option (List ConfigValue)
  | [] => some []
  | fields :: rest => do return (← tableValue? fields) :: (← tableValues? rest)

end

end Node

namespace Table

/-- Changes the last of several tables. -/
def updateLast (change : Table → Option Table) : List Table → Option (List Table)
  | [] => none
  | [fields] => (change fields).map ([·])
  | fields :: rest => (updateLast change rest).map (fields :: ·)

/-- Changes the table that a header path leads to; tables on the way are made as needed. -/
def update (change : Table → Option Table) : List String → Table → Option Table
  | [], fields => change fields
  | key :: path, fields =>
    match Fields.get? fields key with
    | none => (update change path []).map fun inner => Fields.set fields key (.table .passing inner)
    | some (.table origin inner) =>
      (update change path inner).map fun inner => Fields.set fields key (.table origin inner)
    | some (.tables items) =>
      (updateLast (update change path) items).map fun items => Fields.set fields key (.tables items)
    | some _ => none

/-- Adds a table with a header; it may only have been passed before. -/
def define (key : String) (fields : Table) : Option Table :=
  match Fields.get? fields key with
  | none => some (Fields.set fields key (.table .header []))
  | some (.table .passing inner) => some (Fields.set fields key (.table .header inner))
  | _ => none

/-- Adds another of several tables of one name. -/
def defineItem (key : String) (fields : Table) : Option Table :=
  match Fields.get? fields key with
  | none => some (Fields.set fields key (.tables [[]]))
  | some (.tables items) => some (Fields.set fields key (.tables (items ++ [[]])))
  | _ => none

/-- Adds a value under a key of one or more parts; the parts before the last name tables that
dotted keys have made. -/
def insert (v : Node) : List String → Table → Option Table
  | [], _ => none
  | [key], fields =>
    if (Fields.get? fields key).isSome then none else some (Fields.set fields key v)
  | key :: path, fields =>
    let isLast := path.length = 1
    match Fields.get? fields key with
    | none => (insert v path []).map fun inner => Fields.set fields key (.table .dottedKey inner)
    | some (.table origin inner) =>
      if origin = .header || (isLast && origin ≠ .dottedKey) then none
      else (insert v path inner).map fun inner => Fields.set fields key (.table origin inner)
    | some (.tables items) =>
      if isLast then none
      else (updateLast (insert v path) items).map fun items => Fields.set fields key (.tables items)
    | some _ => none

end Table

/-! ## Values -/

/-- Passes over the rest of a line, which may hold a comment. -/
def endLine? (s : List Char) : Option (List Char) :=
  let rest :=
    match skipSpaces s with
    | '#' :: comment => comment.dropWhile isPlain
    | rest => rest
  if rest.isEmpty then some [] else newline? rest

/-- Passes over blanks, comments and ends of lines. -/
def skipLines : Nat → List Char → Option (List Char)
  | 0, s => some s
  | fuel + 1, s =>
    match skipSpaces s with
    | '#' :: rest => do skipLines fuel (← newline? (rest.dropWhile isPlain))
    | rest =>
      match newline? rest with
      | some rest => skipLines fuel rest
      | none => some rest

def isWordChar (c : Char) : Bool :=
  isBareKey c || c = '+' || c = '.' || c = ':'

/-- The word at the head of `s`; a date and a time may have a space between them. -/
def spanWord (s : List Char) : List Char × List Char :=
  let word := s.takeWhile isWordChar
  let rest := s.dropWhile isWordChar
  match readDate word, rest with
  | some (_, []), ' ' :: after =>
    let time := after.takeWhile isWordChar
    if (readTime .value time).isSome then (word ++ ' ' :: time, after.dropWhile isWordChar)
    else (word, rest)
  | _, _ => (word, rest)

/-- The value of a word. -/
def wordValue? (word : List Char) : Option Node :=
  if word = "true".toList then some (.value (.bool true))
  else if word = "false".toList then some (.value (.bool false))
  else
    match integer? word, float? word with
    | some n, _ => some (.value (.integer n))
    | none, some d => some (.value (.float d))
    | none, none => (moment? .value word).map fun text => .moment (String.ofList text)

/-- Lists and tables in values nest at most this deep. -/
def maxLevels : Nat := 79

mutual

/-- Reads a value in which lists and tables nest at most `levels` deep. -/
def readValue (levels : Nat) : Nat → List Char → Option (Node × List Char)
  | 0, _ => none
  | fuel + 1, s =>
    match s with
    | '[' :: rest =>
      match levels with
      | 0 => none
      | levels + 1 => (readItems levels fuel rest).map fun (items, rest) => (.list items, rest)
    | '{' :: rest =>
      match levels with
      | 0 => none
      | levels + 1 => do
        let (fields, rest) ←
          match skipSpaces rest with
          | '}' :: rest => some ([], rest)
          | rest => readPairs levels fuel [] rest
        return (.closed fields, rest)
    | '"' :: _ | '\'' :: _ => (readString s).map fun (text, rest) => (.value (.text text), rest)
    | _ =>
      let (word, rest) := spanWord s
      (wordValue? word).map fun v => (v, rest)

/-- Reads the items of a list and its closing bracket; a comma may follow the last item. -/
def readItems (levels : Nat) : Nat → List Char → Option (List Node × List Char)
  | 0, _ => none
  | fuel + 1, s => do
    match ← skipLines s.length s with
    | ']' :: rest => return ([], rest)
    | rest =>
      let (item, rest) ← readValue levels fuel rest
      match ← skipLines rest.length rest with
      | ',' :: rest =>
        let (items, rest) ← readItems levels fuel rest
        return (item :: items, rest)
      | ']' :: rest => return ([item], rest)
      | _ => none

/-- Reads the pairs of a table on one line, at least one, and its closing brace. -/
def readPairs (levels : Nat) : Nat → Table → List Char → Option (Table × List Char)
  | 0, _, _ => none
  | fuel + 1, fields, s => do
    let (path, rest) ← readKey (skipSpaces s)
    match rest with
    | '=' :: rest =>
      let (v, rest) ← readValue levels fuel (skipSpaces rest)
      let fields ← Table.insert v path fields
      match skipSpaces rest with
      | ',' :: rest => readPairs levels fuel fields rest
      | '}' :: rest => return (fields, rest)
      | _ => none
    | _ => none

end

/-! ## Lines -/

/-- What has been read, and the path of the last header. -/
structure Reading where
  root : Table
  header : List String

/-- Reads a header up to `close`, and makes its table by `define`. -/
def readHeader (define : String → Table → Option Table) (close : List Char) (reading : Reading)
    (s : List Char) : Option (Reading × List Char) := do
  let (path, rest) ← readKey (skipSpaces s)
  let rest ← Text.dropStart? close rest
  let root ← Table.update (define (path.getLastD "")) path.dropLast reading.root
  return (⟨root, path⟩, rest)

/-- Reads a key and its value. -/
def readPair (reading : Reading) (s : List Char) : Option (Reading × List Char) := do
  let (path, rest) ← readKey s
  let (v, rest) ← readValue maxLevels (2 * s.length) (skipSpaces (← Text.dropStart? ['='] rest))
  let root ← Table.update (Table.insert v path) reading.header reading.root
  return ({ reading with root := root }, rest)

/-- Reads one line, without its end; an empty line has nothing to read. -/
def readLine (reading : Reading) (s : List Char) : Option (Reading × List Char) :=
  match s with
  | '[' :: '[' :: rest => readHeader Table.defineItem [']', ']'] reading rest
  | '[' :: rest => readHeader Table.define [']'] reading rest
  | _ => if (endLine? s).isSome then some (reading, s) else readPair reading s

def readAll : Nat → Reading → List Char → Option Reading
  | 0, reading, s => if s.isEmpty then some reading else none
  | fuel + 1, reading, s => do
    let (reading, rest) ← readLine reading (skipSpaces s)
    match ← endLine? rest with
    | [] => return reading
    | rest => readAll fuel reading rest

/-- The fields of a document. A mark of the byte order may stand in front. -/
def read? (s : List Char) : Option (List (String × ConfigValue)) :=
  let s := (Text.dropStart? ['\ufeff'] s).getD s
  (readAll s.length ⟨[], []⟩ s).bind fun reading => (Node.tableValue? reading.root).bind fields?
where
  fields? : ConfigValue → Option (List (String × ConfigValue))
    | .table fields => some fields
    | _ => none

end SnippetRunner.Toml
