import SnippetRunner.Text.Word
import SnippetRunner.Script.Declaration

/-
  The written forms of module declarations. Each form is read from the head of a text; what is
  left of the text is given back with the declaration.
-/
namespace SnippetRunner.Script

open SnippetRunner.Text

/-- Reads the blanks at the head of `s`, at least one. -/
def someBlanks? (s : List Char) : Option (List Char) :=
  if s.head?.any isBlank then some (trimStart s) else none

def isIdentifierStart (c : Char) : Bool := c.isAlpha || c = '_' || c = '$'

def isIdentifierPart (c : Char) : Bool := isWord c || c = '$'

def identifier? (s : List Char) : Option (List Char × List Char) :=
  if s.head?.any isIdentifierStart then
    some (s.takeWhile isIdentifierPart, s.dropWhile isIdentifierPart)
  else none

def isQuote (c : Char) : Bool := c = '\'' || c = '"'

/-- Reads the name of a module between quotes; it does not run over a line end. -/
def moduleName? : List Char → Option (List Char × List Char)
  | [] => none
  | c :: s =>
    let name := s.takeWhile fun d => !isQuote d && d ≠ '\n'
    match s.drop name.length with
    | close :: rest =>
      if isQuote c && isQuote close && !name.isEmpty then some (name, rest) else none
    | [] => none

/-- Reads a list between braces. -/
def bracedList? : List Char → Option (List Specifier × List Char)
  | [] => none
  | c :: s =>
    let list := s.takeWhile (· ≠ '}')
    match s.drop list.length with
    | _ :: rest => if c = '{' then some (Specifier.ofList list, rest) else none
    | [] => none

/-- Reads the blanks and the semicolon after a declaration. -/
def declarationEnd (s : List Char) : List Char :=
  match trimStart s with
  | [] => []
  | c :: rest => if c = ';' then rest else c :: rest

/-- Reads `from` and the name of a module, up to the end of the declaration. -/
def fromModule? (s : List Char) : Option (List Char × List Char) := do
  let s ← dropStart? "from".toList s
  let (module, s) ← moduleName? (trimStart s)
  return (module, declarationEnd s)

/-- Reads a star, `as` and the identifier of a whole module, with the blanks after it. -/
def wholeModule? (s : List Char) : Option (List Char × List Char) := do
  let s ← dropStart? "*".toList s
  let s ← dropStart? "as".toList (trimStart s)
  let (whole, s) ← identifier? (← someBlanks? s)
  return (whole, ← someBlanks? s)

/-- Reads an identifier after blanks, up to a comma and the blanks around it. -/
def defaultName? (s : List Char) : Option (List Char × List Char) := do
  let (name, s) ← identifier? (← someBlanks? s)
  let s ← dropStart? ",".toList (trimStart s)
  return (name, trimStart s)

/-- Reads the keyword of a declaration, up to the end of the word. -/
def bindingKeyword? (s : List Char) : Option (List Char × List Char) :=
  let plain := ["const", "let", "var", "function", "class"].map String.toList
  let ended (keyword rest : List Char) :=
    if wordEnds rest then some (keyword, rest) else none
  (plain.findSome? fun keyword => (dropStart? keyword s).bind (ended keyword)).or do
    let afterAsync ← dropStart? "async".toList s
    let rest ← dropStart? "function".toList (← someBlanks? afterAsync)
    ended (s.take (s.length - rest.length)) rest

inductive Form where
  | importDefaultAndWhole
  | importDefaultAndNamed
  | importWhole
  | importNamed
  | importDefault
  | importBare
  | exportDefault
  | exportBinding
  | exportNamedFrom
  | exportAllFrom
  | exportNames
  deriving DecidableEq, Repr

namespace Form

/-- Every form, in the order in which they are replaced: the longer import before the shorter
one that it could be taken for, the list of another module before the bare list. -/
def all : List Form :=
  [importDefaultAndWhole, importDefaultAndNamed, importWhole, importNamed, importDefault,
    importBare, exportDefault, exportBinding, exportNamedFrom, exportAllFrom, exportNames]

/-- Reads a declaration of this form at the head of `s`. -/
def read? (form : Form) (s : List Char) : Option (Declaration × List Char) :=
  match form with
  | importDefaultAndWhole => do
    let (name, s) ← defaultName? (← dropStart? "import".toList s)
    let (whole, s) ← wholeModule? s
    let (module, s) ← fromModule? s
    return (.importDefaultAndWhole name whole module, s)
  | importDefaultAndNamed => do
    let (name, s) ← defaultName? (← dropStart? "import".toList s)
    let (named, s) ← bracedList? s
    let (module, s) ← fromModule? (trimStart s)
    return (.importDefaultAndNamed name named module, s)
  | importWhole => do
    let (whole, s) ← wholeModule? (trimStart (← dropStart? "import".toList s))
    let (module, s) ← fromModule? s
    return (.importWhole whole module, s)
  | importNamed => do
    let (named, s) ← bracedList? (trimStart (← dropStart? "import".toList s))
    let (module, s) ← fromModule? (trimStart s)
    return (.importNamed named module, s)
  | importDefault => do
    let (name, s) ← identifier? (← someBlanks? (← dropStart? "import".toList s))
    let (module, s) ← fromModule? (← someBlanks? s)
    return (.importDefault name module, s)
  | importBare => do
    let (module, s) ← moduleName? (trimStart (← dropStart? "import".toList s))
    return (.importBare module, declarationEnd s)
  | exportDefault => do
    let s ← dropStart? "default".toList (← someBlanks? (← dropStart? "export".toList s))
    return (.exportDefault, ← someBlanks? s)
  | exportBinding => do
    let (keyword, s) ← bindingKeyword? (← someBlanks? (← dropStart? "export".toList s))
    return (.exportBinding keyword, s)
  | exportNamedFrom => do
    let (named, s) ← bracedList? (trimStart (← dropStart? "export".toList s))
    let (module, s) ← fromModule? (trimStart s)
    return (.exportNamedFrom named module, s)
  | exportAllFrom => do
    let s ← dropStart? "*".toList (trimStart (← dropStart? "export".toList s))
    let (module, s) ← fromModule? (trimStart s)
    return (.exportAllFrom module, s)
  | exportNames => do
    let (_, s) ← bracedList? (trimStart (← dropStart? "export".toList s))
    return (.exportNames, declarationEnd s)

end Form

end SnippetRunner.Script
