import SnippetRunner.Engine.Blank
import SnippetRunner.Error.Position
import SnippetRunner.Text.Numeral
import SnippetRunner.Text.Word

/-
  Tokens of the scripts that the isolated engine runs. Blanks, line ends and comments lie between
  tokens; strings have no escapes. Columns count bytes of the UTF-8 encoding here.
-/
namespace SnippetRunner.Engine

open SnippetRunner.Text

inductive TokenKind where
  | word (name : String)
  /-- A number, by its text. -/
  | number (text : List Char)
  /-- A whole number of any size, by its digits. -/
  | bigint (digits : List Char)
  | string (text : List Char)
  | mark (c : Char)
  /-- A character that begins no token. -/
  | stray (c : Char)
  deriving DecidableEq, Repr

structure Token where
  kind : TokenKind
  position : Position
  /-- Whether a line ends between the token before and this one. -/
  opensLine : Bool
  deriving DecidableEq, Repr

namespace TokenKind

/-- A token as it was written. -/
def text : TokenKind → String
  | word name => name
  | number text => String.ofList text
  | bigint digits => String.ofList (digits ++ ['n'])
  | string text => "'" ++ String.ofList text ++ "'"
  | mark c => String.ofList [c]
  | stray c => String.ofList [c]

end TokenKind

namespace Token

/-- The position after a token or comment that begins at `p`. -/
def positionAfter (p : Position) (text : List Char) : Position :=
  text.foldl (fun p c => if c = '\n' then ⟨p.line + 1, 1⟩ else ⟨p.line, p.column + c.utf8Size⟩) p

/-- The length of a block comment after its opening mark. -/
def blockLength : List Char → Nat
  | [] => 0
  | '*' :: '/' :: _ => 2
  | _ :: rest => blockLength rest + 1

/-- The length of a line comment after its opening mark. A separator that ends it belongs to it
and does not count as the end of a line. -/
def lineLength (s : List Char) : Nat :=
  let body := s.takeWhile (!endsLine ·)
  body.length + (((s.drop body.length).take 1).filter isSeparator).length

/-- Passes over one blank, line end or comment at the head of `s`, which stands at `p`. -/
def skipGap? (p : Position) (s : List Char) : Option (Position × List Char) :=
  match s with
  | '/' :: '/' :: rest => some (skip (2 + lineLength rest))
  | '/' :: '*' :: rest => some (skip (2 + blockLength rest))
  | '\r' :: '\n' :: rest => some (⟨p.line + 1, 1⟩, rest)
  | c :: rest =>
    if endsLine c then some (⟨p.line + 1, 1⟩, rest)
    else if isScriptBlank c then some (skip 1)
    else none
  | [] => none
where
  skip (count : Nat) : Position × List Char := (positionAfter p (s.take count), s.drop count)

/-- Words begin with letters; digits and marks may follow. -/
def isWordStart (c : Char) : Bool :=
  c = '$' || (isAlphanumeric c && !isDigit c) || c = '_'

def isWordPart (c : Char) : Bool := c = '$' || isWord c

/-- Whether `c` is a mark on its own: the printed ASCII characters are. -/
def isMark (c : Char) : Bool := 0x20 ≤ c.toNat && c.toNat < 0x7F

/-- Splits the point and the fraction off the head of `s`, if they are there. -/
def splitFraction : List Char → List Char × List Char
  | '.' :: s => ('.' :: (spanDigits s).1, (spanDigits s).2)
  | s => ([], s)

/-- Splits the exponent off the head of `s`, if there is one. -/
def splitExponent : List Char → List Char × List Char
  | e :: s =>
    if e = 'e' || e = 'E' then
      let sign := (s.take 1).filter fun c => c = '-' || c = '+'
      let (digits, rest) := spanDigits (s.drop sign.length)
      (e :: sign ++ digits, rest)
    else ([], e :: s)
  | [] => ([], [])

/-- Reads a number at the head of `s`. -/
def readNumber (s : List Char) : TokenKind × List Char :=
  let (whole, rest) := spanDigits s
  match rest with
  | 'n' :: rest => (.bigint whole, rest)
  | _ =>
    let (fraction, rest) := splitFraction rest
    let (exponent, rest) := splitExponent rest
    (.number (whole ++ fraction ++ exponent), rest)

/-- Whether a number begins with `c`; a digit follows a point that begins one. -/
def opensNumber (c : Char) (s : List Char) : Bool :=
  c.isDigit || (c = '.' && s.head?.any Char.isDigit)

/-- Reads the token at the head of `s`. -/
def readKind (c : Char) (s : List Char) : TokenKind × List Char :=
  if c = '\'' || c = '"' then
    let body := s.takeWhile (· ≠ c)
    (.string body, s.drop (body.length + 1))
  else if opensNumber c s then readNumber (c :: s)
  else if isWordStart c then
    (.word (String.ofList ((c :: s).takeWhile isWordPart)), (c :: s).dropWhile isWordPart)
  else (if isMark c then .mark c else .stray c, s)

/-- The tokens of a text that begins at `p`, after a token on the line `last`. -/
def allFrom : Nat → Nat → Position → List Char → List Token
  | 0, _, _, _ => []
  | _, _, _, [] => []
  | fuel + 1, last, p, c :: s =>
    match skipGap? p (c :: s) with
    | some (q, rest) => allFrom fuel last q rest
    | none =>
      let (kind, rest) := readKind c s
      ⟨kind, p, last < p.line⟩
        :: allFrom fuel p.line (positionAfter p ((c :: s).take (s.length + 1 - rest.length))) rest

/-- The tokens of a script. Every step takes a character, so its length bounds the steps. -/
def all (source : List Char) : List Token := allFrom source.length 1 ⟨1, 1⟩ source

end Token

end SnippetRunner.Engine
