import SnippetRunner.Run.Environment
import SnippetRunner.Text.Split
import SnippetRunner.Text.Word

/-
  Files of environment variables. A line names a variable and its value; the value may be quoted
  and may refer to other variables. Reading ends at the first line that is malformed, and a
  variable that is already set keeps its value.
-/
namespace SnippetRunner.Dotenv

open SnippetRunner.Text

/-! ## Lines -/

/-- Where a line stands: quotes carry it over its end. -/
inductive LineState where
  | complete
  | blank
  | escape
  | weak
  | weakEscape
  | strong
  | strongEscape
  | comment
  deriving DecidableEq, Repr

def LineState.open (c : Char) : LineState :=
  if c = '\\' then escape else if c = '"' then weak else if c = '\'' then strong else complete

def LineState.step (state : LineState) (c : Char) : LineState :=
  match state with
  | complete => if isBlank c && c ≠ '\n' && c ≠ '\r' then blank else .open c
  | blank => if c = '#' then comment else .open c
  | escape => complete
  | weak => if c = '\\' then weakEscape else if c = '"' then complete else weak
  | weakEscape => weak
  | strong => if c = '\\' then strongEscape else if c = '\'' then complete else strong
  | strongEscape => strong
  | comment => comment

/-- The text up to a comment, and the state after it. -/
def LineState.scan (state : LineState) : List Char → List Char × LineState
  | [] => ([], state)
  | c :: rest =>
    let next := state.step c
    if next = .comment then ([], .comment)
    else
      let (kept, last) := scan next rest
      (c :: kept, last)

/-- Joins the pieces between line ends to lines, after the beginning `before` of a line. A line
that does not end is none. -/
def joinLines (before : List Char) (state : LineState) :
    List (List Char) → List (Option (List Char))
  | [] => if state = .complete then [] else [none]
  | piece :: rest =>
    let line := before ++ piece
    if (trimStart line).head? = some '#' then some [] :: joinLines [] .complete rest
    else
      let (kept, last) := state.scan piece
      if last = .complete || last = .comment then
        some (before ++ kept) :: joinLines [] .complete rest
      else joinLines line last rest

def lines (text : List Char) : List (Option (List Char)) :=
  joinLines [] .complete (splitAfter (· = '\n') text)

/-! ## Values -/

inductive Phase where
  | plain
  | escaped
  | strong
  /-- In the name of a variable. -/
  | name (read : List Char)
  /-- In the name of a variable that stands between braces. -/
  | braced (read : List Char)
  /-- After the value, where only blanks and a comment may follow. -/
  | ended
  | comment
  deriving DecidableEq, Repr

structure ValueScan where
  phase : Phase
  /-- Whether a double quote is open. -/
  weak : Bool
  output : List Char
  deriving DecidableEq, Repr

namespace ValueScan

def push (v : ValueScan) (c : Char) : ValueScan := { v with output := v.output ++ [c] }

/-- Puts the value of a variable in; one that is not set is empty. -/
def substitute (env : Environment) (v : ValueScan) (name : List Char) : ValueScan :=
  { v with
    phase := .plain
    output := v.output ++ ((env.get? (String.ofList name)).getD "").toList }

def isNameChar (c : Char) : Bool := isWord c && c ≠ '_'

/-- Characters that an escape stands for. -/
def unescaped? (c : Char) : Option Char :=
  if ['\\', '\'', '"', '$', ' '].contains c then some c else if c = 'n' then some '\n' else none

def stepPlain (v : ValueScan) (c : Char) : ValueScan :=
  if c = '$' then { v with phase := .name [] }
  else if c = '\\' then { v with phase := .escaped }
  else if c = '"' then { v with weak := !v.weak }
  else if v.weak then v.push c
  else if c = '\'' then { v with phase := .strong }
  else if c = ' ' || c = '\t' then { v with phase := .ended }
  else v.push c

def step (env : Environment) (v : ValueScan) (c : Char) : Option ValueScan :=
  match v.phase with
  | .plain => some (v.stepPlain c)
  | .escaped => (unescaped? c).map fun d => { v.push d with phase := .plain }
  | .strong => some (if c = '\'' then { v with phase := .plain } else v.push c)
  | .name read =>
    if isNameChar c then some { v with phase := .name (read ++ [c]) }
    else if c = '{' && read.isEmpty then some { v with phase := .braced [] }
    else
      let done := v.substitute env read
      some (if c = '$' then { done with phase := .name [] } else done.push c)
  | .braced read =>
    some (if c = '}' then v.substitute env read else { v with phase := .braced (read ++ [c]) })
  | .ended =>
    if c = ' ' || c = '\t' then some v
    else if c = '#' then some { v with phase := .comment }
    else none
  | .comment => some v

/-- The value after its last character. -/
def finish? (env : Environment) (v : ValueScan) : Option (List Char) :=
  if v.weak then none
  else
    match v.phase with
    | .strong | .braced _ => none
    | .name read => some (v.substitute env read).output
    | _ => some v.output

end ValueScan

/-- The value that a text stands for. -/
def value? (env : Environment) (text : List Char) : Option (List Char) := do
  (← text.foldlM (ValueScan.step env) ⟨.plain, false, []⟩).finish? env

/-! ## Entries -/

def readKey (s : List Char) : Option (List Char × List Char) :=
  let isKeyChar (c : Char) : Bool := c.isAlphanum || c = '_' || c = '.'
  if s.head?.any fun c => c.isAlpha || c = '_' then
    some (s.takeWhile isKeyChar, trimStart (s.dropWhile isKeyChar))
  else none

/-- Reads a key and the equals sign after it; the word `export` may stand before the key. -/
def readName (s : List Char) : Option (List Char × List Char) := do
  let (key, rest) ← readKey s
  match dropStart? ['='] rest with
  | some rest => return (key, rest)
  | none =>
    if key = "export".toList then
      let (key, rest) ← readKey rest
      return (key, ← dropStart? ['='] rest)
    else none

/-- The variable that a line sets; a line without an entry sets none. -/
def assignment? (env : Environment) (line : List Char) : Option (Option (String × String)) := do
  let line := trim line
  if line.isEmpty || line.head? = some '#' then return none
  let (key, rest) ← readName line
  let rest := trimStart rest
  let value ← if rest.isEmpty || rest.head? = some '#' then some [] else value? env rest
  return some (String.ofList key, String.ofList value)

/-- Sets a variable that is not set. -/
def define (env : Environment) (entry : String × String) : Environment :=
  if (env.get? entry.1).isSome then env else env ++ [entry]

def defineAll (env : Environment) : List (Option (List Char)) → Environment
  | [] => env
  | line :: rest =>
    match line.bind (assignment? env) with
    | none => env
    | some entry => defineAll (entry.elim env (define env)) rest

end SnippetRunner.Dotenv

namespace SnippetRunner

/-- The environment with the variables of a file. -/
def Environment.withFile (env : Environment) (text : List Char) : Environment :=
  Dotenv.defineAll env (Dotenv.lines ((Text.dropStart? ['\ufeff'] text).getD text))

end SnippetRunner
