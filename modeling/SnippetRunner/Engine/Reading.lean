import SnippetRunner.Engine.Numeral
import SnippetRunner.Engine.Program
import SnippetRunner.Engine.Token
import SnippetRunner.Script.Keyword

/-
  Reading programs from their tokens. A reader takes tokens off the head of a list, or complains
  about the first one that cannot stand where it does.
-/
namespace SnippetRunner.Engine

/-! ## Faults -/

/-- Why a script cannot be read. -/
inductive SyntaxCause where
  | unexpected (token : TokenKind)
  | expected (c : Char)
  | strayCharacter
  /-- A line ends between `throw` and what is thrown. -/
  | brokenThrow
  | unfinished
  | redeclared
  deriving DecidableEq, Repr

structure SyntaxFault where
  cause : SyntaxCause
  /-- The place after the token that is at fault, or of the character that begins none. -/
  position : Position
  deriving DecidableEq, Repr

namespace SyntaxFault

def message (fault : SyntaxFault) : String :=
  match fault.cause with
  | .unexpected token => "unexpected token in expression: '" ++ token.text ++ "'"
  | .expected c => "expecting '" ++ String.ofList [c] ++ "'"
  | .strayCharacter => "unexpected character"
  | .brokenThrow => "line terminator not allowed after throw"
  | .unfinished => "unexpected end of script"
  | .redeclared => "invalid redefinition of lexical identifier"

end SyntaxFault

/-- Readers take tokens off the head of a list. -/
abbrev Reading := StateT (List Token) (Except SyntaxFault)

namespace Reading

/-- Complains about a token. One that is no token at all is complained about as such. -/
def fault {α : Type} (cause : SyntaxCause) (t : Token) : Reading α :=
  match t.kind with
  | .stray _ => throw ⟨.strayCharacter, t.position⟩
  | kind => throw ⟨cause, t.position.line, t.position.column + kind.text.utf8ByteSize⟩

def unfinished {α : Type} : Reading α := throw ⟨.unfinished, ⟨1, 1⟩⟩

/-- Complains about the next token. -/
def faultNext {α : Type} (cause : SyntaxCause) : Reading α := do
  match ← get with
  | t :: _ => fault cause t
  | [] => unfinished

def token : Reading Token := do
  match ← get with
  | t :: ts => set ts; return t
  | [] => unfinished

def unexpected {α : Type} (t : Token) : Reading α := fault (.unexpected t.kind) t

/-- Whether the next token is the mark `c`. -/
def isNext (c : Char) : Reading Bool := return (← get).head?.any (·.kind = .mark c)

/-- Passes over the mark `c`, if it is next. -/
def skips (c : Char) : Reading Bool := do
  let found ← isNext c
  if found then modify (·.drop 1)
  return found

def mark (c : Char) : Reading Unit := do
  if ← skips c then return else faultNext (.expected c)

def word : Reading (String × Position) := do
  let t ← token
  match t.kind with
  | .word name => return (name, t.position)
  | _ => unexpected t

/-- The place of the next token. -/
def place : Reading Position := do
  match ← get with
  | t :: _ => return t.position
  | [] => unfinished

end Reading

/-! ## Expressions -/

/-- Words that no name is. -/
def isReserved (word : String) : Bool := Script.statementKeywords.contains word.toList

namespace TokenKind

/-- The key that a token is before a colon. -/
def key? : TokenKind → Option String
  | word name => some name
  | string text => some (String.ofList text)
  | number text => (Double.ofText? text).map numberText
  | bigint digits => some (Nat.repr (Text.digitsValue digits))
  | mark _ => none
  | stray _ => none

/-- The value that a token is on its own. -/
def literal? : TokenKind → Option Datum
  | number text => (Double.ofText? text).map .number
  | bigint digits => some (.bigint (Text.digitsValue digits))
  | string text => some (.string (String.ofList text))
  | word "true" => some (.bool true)
  | word "false" => some (.bool false)
  | word "null" => some .null
  | _ => none

end TokenKind

namespace Reading

/-- Reads a function without parameters and body, from its name on. -/
def function : Reading String := do
  let (name, _) ← word
  mark '('
  mark ')'
  mark '{'
  mark '}'
  return name

mutual

/-- Reads expressions with commas between them; the last is the value of all. -/
def sequence : Nat → Reading Expr
  | 0 => unfinished
  | fuel + 1 => do
    let e ← expr fuel
    if ← skips ',' then return .sequence e (← sequence fuel) else return e

def expr : Nat → Reading Expr
  | 0 => unfinished
  | fuel + 1 => do
    match ← operand fuel with
    | .member target key place =>
      if ← skips '=' then return .assign target key place (← expr fuel)
      else difference fuel (.member target key place)
    | e => difference fuel e

/-- Reads what is subtracted from `e`. -/
def difference : Nat → Expr → Reading Expr
  | 0, _ => unfinished
  | fuel + 1, e => do
    if ← skips '-' then difference fuel (.subtract e (← operand fuel)) else return e

/-- Reads an operand and the operators in front of it. -/
def operand : Nat → Reading Expr
  | 0 => unfinished
  | fuel + 1 => do
    match ← get with
    | ⟨.mark '-', _, _⟩ :: ts => set ts; return .negate (← operand fuel)
    | ⟨.word "await", _, _⟩ :: ts => set ts; return .await (← operand fuel)
    | _ => suffixes fuel (← primary fuel)

def primary : Nat → Reading Expr
  | 0 => unfinished
  | fuel + 1 => do
    let t ← token
    match t.kind.literal?, t.kind with
    | some d, _ => return .literal d
    | none, .mark '(' =>
      let e ← sequence fuel
      mark ')'
      return e
    | none, .mark '[' => return .array (← exprs fuel ']')
    | none, .mark '{' => return .object (← fields fuel)
    | none, .word "function" => return .function (← function)
    | none, .word "new" =>
      let start ← place
      let constructor ← members fuel (← primary fuel)
      if ← skips '(' then return .construct start constructor (← exprs fuel ')')
      else return .construct start constructor []
    | none, .word name =>
      if isReserved name then unexpected t else return .name name
    | none, _ => unexpected t

/-- Reads the keys that follow `e`. -/
def members : Nat → Expr → Reading Expr
  | 0, _ => unfinished
  | fuel + 1, e => do
    if ← skips '.' then
      let (key, place) ← word
      members fuel (.member e key place)
    else return e

/-- Reads the keys, indices and arguments that follow `e`. -/
def suffixes : Nat → Expr → Reading Expr
  | 0, _ => unfinished
  | fuel + 1, e => do
    if ← skips '.' then
      let (key, place) ← word
      suffixes fuel (.member e key place)
    else if ← skips '[' then
      let index ← sequence fuel
      mark ']'
      suffixes fuel (.element e index)
    else if ← skips '(' then
      let start ← place
      suffixes fuel (.call e start (← exprs fuel ')'))
    else return e

/-- Reads expressions with commas between them, up to the mark `close`. -/
def exprs : Nat → Char → Reading (List Expr)
  | 0, _ => unfinished
  | fuel + 1, close => do
    if ← skips close then return []
    let e ← expr fuel
    if ← skips close then return [e]
    mark ','
    return e :: (← exprs fuel close)

/-- Reads the fields of an object, up to its end. A name on its own is the key of its value. -/
def fields : Nat → Reading (List (String × Expr))
  | 0 => unfinished
  | fuel + 1 => do
    if ← skips '}' then return []
    let t ← token
    let field ←
      match t.kind.key?, ← skips ':', t.kind with
      | some key, true, _ => do pure (key, ← expr fuel)
      | some key, false, .word name => pure (key, .name name)
      | _, _, _ => unexpected t
    if ← skips ',' then return field :: (← fields fuel)
    mark '}'
    return [field]

end

/-- Reads an expression. Of six steps of reading one takes a token, which bounds the steps. -/
def wholeExpr : Reading Expr := do expr (6 * (← get).length + 6)

def wholeSequence : Reading Expr := do sequence (6 * (← get).length + 6)

/-! ## Statements -/

/-- Whether a statement may end here: before a line end, a closing brace, a semicolon and the end
of the script. -/
def mayEnd : Reading Bool := do
  match ← get with
  | [] => return true
  | t :: _ => return t.opensLine || t.kind = .mark '}' || t.kind = .mark ';'

def statementEnd : Reading Unit := do
  if ← mayEnd then
    let _ ← skips ';'
  else faultNext (.expected ';')

/-- Reads the expression of a statement, and its place. -/
def statementExpr (read : Reading Expr) : Reading (Position × Expr) := do
  let start ← place
  let e ← read
  statementEnd
  return (start, e)

/-- Reads a statement, where the names `declared` are taken. -/
def statement (declared : List String) : Reading Statement := do
  match ← get with
  | ⟨.word "const", _, _⟩ :: ts =>
    set ts
    let (name, _) ← word
    if declared.contains name then faultNext .redeclared
    mark '='
    let (start, e) ← statementExpr wholeExpr
    return .declare name start e
  | ⟨.word "function", _, _⟩ :: ts =>
    set ts
    return .function (← function)
  | ⟨.word "throw", _, _⟩ :: ts =>
    set ts
    if ts.head?.any Token.opensLine then faultNext .brokenThrow
    let (start, e) ← statementExpr wholeSequence
    return .throw start e
  | ⟨.word "return", start, _⟩ :: ts =>
    set ts
    if ← mayEnd then
      statementEnd
      return .return start (.literal .undefined)
    else
      let (start, e) ← statementExpr wholeSequence
      return .return start e
  | _ =>
    let (start, e) ← statementExpr wholeSequence
    return .evaluate start e

/-- Reads statements up to the end of their block. A label says nothing about its statement, and
a block stands for the statements in it. -/
def statements : Nat → List String → Reading Program
  | 0, _ => unfinished
  | fuel + 1, declared => do
    match ← get with
    | [] => return []
    | ⟨.mark '}', _, _⟩ :: _ => return []
    | ⟨.mark ';', _, _⟩ :: ts => set ts; statements fuel declared
    | ⟨.word _, _, _⟩ :: ⟨.mark ':', _, _⟩ :: ts => set ts; statements fuel declared
    | ⟨.mark '{', _, _⟩ :: ts =>
      set ts
      let inner ← statements fuel declared
      mark '}'
      return inner ++ (← statements fuel declared)
    | _ =>
      let first ← statement declared
      return first :: (← statements fuel (Program.constants [first] ++ declared))

def program : Reading Program := do
  let p ← statements ((← get).length + 1) []
  match ← get with
  | [] => return p
  | t :: _ => unexpected t

end Reading

/-- Reads a script. -/
def Program.ofSource (source : List Char) : Except SyntaxFault Program :=
  Reading.program.run' (Token.all source)

end SnippetRunner.Engine
