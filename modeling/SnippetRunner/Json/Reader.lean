import SnippetRunner.Fields
import SnippetRunner.Json
import SnippetRunner.Text.Numeral
import SnippetRunner.Text.Split

/-
  Reading JSON text. A text is first read as a draft, which follows the grammar but may still
  hold half a surrogate pair, a number out of range, any depth of nesting and one key twice. A
  draft is a value if there is none of the first three; of two fields with one key the later
  value takes the earlier place.
-/
namespace SnippetRunner.Json

open SnippetRunner.Text

def isJsonBlank (c : Char) : Bool := c = ' ' || c = '\n' || c = '\t' || c = '\r'

def skipBlanks (s : List Char) : List Char := s.dropWhile isJsonBlank

/-- A text that follows the grammar of JSON. A number or string that stands for no value is
`none`. -/
inductive Draft where
  | null
  | bool (b : Bool)
  | number (n : Option JsonNumber)
  | string (s : Option String)
  | array (items : List Draft)
  | object (fields : List (Option String × Draft))
  deriving Repr, Inhabited

/-! ## Numbers -/

/-- Appends digits to `significand` as long as it fits into 64 bits; the digits left over are
given back. -/
def absorbDigits (significand : Nat) : List Char → Nat × List Char
  | [] => (significand, [])
  | c :: rest =>
    let next := significand * 10 + digitValue c
    if next < twoPow 64 then absorbDigits next rest else (significand, c :: rest)

/-- Divides by a power of ten, in steps that the power table of the doubles holds. -/
def scaleDown : Nat → Double → Nat → Double
  | 0, d, _ => d
  | steps + 1, d, e =>
    if e ≤ 308 then Double.divFinite d (Double.ofDecimal false 1 e)
    else if d.isZero then d
    else scaleDown steps (Double.divFinite d (Double.ofDecimal false 1 308)) (e - 308)

/-- `significand · 10^e` in two roundings, that of the significand and that of the scaling; none
if it is out of range. -/
def scaledDouble? (significand : Nat) (e : Int) : Option Double :=
  let d := Double.ofNat significand
  if e < 0 then some (scaleDown 4 d e.natAbs)
  else if d.isZero then some d
  else if 308 < e then none
  else
    let scaled := Double.mulFinite d (Double.ofDecimal false 1 e)
    if scaled.isFinite then some scaled else none

/-- The exponent part of a number, with what follows it; zero if there is none. -/
def readExponent (s : List Char) : Option (Int × List Char) :=
  match s with
  | c :: rest =>
    if c = 'e' || c = 'E' then
      let (negative, rest) := splitSign rest
      let (digits, rest) := spanDigits rest
      let value : Int := digitsValue digits
      if digits.isEmpty then none else some (if negative then -value else value, rest)
    else some (0, s)
  | [] => some (0, [])

/-- The digits after a decimal point, with what follows them; none if there is no point. -/
def readFraction (s : List Char) : Option (List Char × List Char) :=
  match s with
  | '.' :: rest =>
    let (digits, rest) := spanDigits rest
    if digits.isEmpty then none else some (digits, rest)
  | _ => some ([], s)

/-- A number written without point and exponent. Below the range of 64 bits, and for a negative
zero, it is a double. -/
def wholeNumber (negative : Bool) (n : Nat) : Option JsonNumber :=
  if !negative then some (.int n)
  else if n = 0 || twoPow 63 < n then JsonNumber.ofDouble? (Double.ofNat n).neg
  else some (.int (-n))

/-- Reads a number without its sign. -/
def readMagnitude (negative : Bool) (s : List Char) : Option (Option JsonNumber × List Char) := do
  let (digits, afterDigits) := spanDigits s
  if digits.isEmpty || (digits.head? = some '0' && 1 < digits.length) then none
  let (significand, excess) := absorbDigits 0 digits
  let (fraction, afterFraction) ← readFraction afterDigits
  let (exponent, rest) ← readExponent afterFraction
  if excess.isEmpty && rest.length = afterDigits.length then
    return (wholeNumber negative significand, rest)
  let (significand, overFraction) := absorbDigits significand fraction
  let places : Int := (fraction.length : Int) - overFraction.length
  let magnitude := scaledDouble? significand (excess.length - places + exponent)
  return (magnitude.bind fun d => JsonNumber.ofDouble? (if negative then d.neg else d), rest)

/-- Reads a number, which is `none` if it is out of range. -/
def readNumber (s : List Char) : Option (Option JsonNumber × List Char) :=
  match s with
  | '-' :: rest => readMagnitude true rest
  | _ => readMagnitude false s

/-! ## Strings -/

def readHex4 : List Char → Option (Nat × List Char)
  | a :: b :: c :: d :: rest => (hexNumber? [a, b, c, d]).map (·, rest)
  | _ => none

def simpleEscape? (c : Char) : Option Char :=
  if c = '"' || c = '\\' || c = '/' then some c
  else if c = 'b' then some '\x08'
  else if c = 'f' then some '\x0c'
  else if c = 'n' then some '\n'
  else if c = 'r' then some '\r'
  else if c = 't' then some '\t'
  else none

/-- Reads the second half of a surrogate pair. -/
def readLowSurrogate (s : List Char) : Option (Nat × List Char) := do
  let (low, s) ← readHex4 (← dropStart? ['\\', 'u'] s)
  if 0xDC00 ≤ low && low ≤ 0xDFFF then some (low - 0xDC00, s) else none

/-- Reads the four digits after `\u`, and a second such escape if the two are a surrogate pair.
A half without its other half is no character. -/
def readUnicodeEscape (s : List Char) : Option (Option Char × List Char) := do
  let (unit, s) ← readHex4 s
  if 0xD800 ≤ unit && unit ≤ 0xDBFF then
    match readLowSurrogate s with
    | some (low, s) => return (some (Char.ofNat (0x10000 + (unit - 0xD800) * 0x400 + low)), s)
    | none => return (none, s)
  else if 0xDC00 ≤ unit && unit ≤ 0xDFFF then return (none, s)
  else return (some (Char.ofNat unit), s)

/-- Reads what follows a backslash. -/
def readEscape : List Char → Option (Option Char × List Char)
  | [] => none
  | c :: rest =>
    if c = 'u' then readUnicodeEscape rest else (simpleEscape? c).map fun d => (some d, rest)

/-- Reads the rest of a string up to its closing quote. -/
def readStringRest : Nat → List Char → Option (Option (List Char) × List Char)
  | fuel + 1, c :: s =>
    if c = '"' then some (some [], s)
    else if c.toNat < 32 then none
    else do
      let (d, s) ← if c = '\\' then readEscape s else some (some c, s)
      let (text, s) ← readStringRest fuel s
      return (do return (← d) :: (← text), s)
  | _, _ => none

/-- Reads a quoted string. -/
def readString : List Char → Option (Option String × List Char)
  | '"' :: s =>
    (readStringRest s.length s).map fun (text, rest) => (text.map String.ofList, rest)
  | _ => none

/-! ## Drafts -/

mutual

def readDraft : Nat → List Char → Option (Draft × List Char)
  | 0, _ => none
  | fuel + 1, s =>
    match skipBlanks s with
    | '[' :: rest =>
      match skipBlanks rest with
      | ']' :: rest => some (.array [], rest)
      | rest => (readItems fuel rest).map fun (items, rest) => (.array items, rest)
    | '{' :: rest =>
      match skipBlanks rest with
      | '}' :: rest => some (.object [], rest)
      | rest => (readFields fuel rest).map fun (fields, rest) => (.object fields, rest)
    | '"' :: rest => (readString ('"' :: rest)).map fun (text, rest) => (.string text, rest)
    | 't' :: rest => (dropStart? "rue".toList rest).map (.bool true, ·)
    | 'f' :: rest => (dropStart? "alse".toList rest).map (.bool false, ·)
    | 'n' :: rest => (dropStart? "ull".toList rest).map (.null, ·)
    | s => (readNumber s).map fun (n, rest) => (.number n, rest)

/-- Reads the items of an array, at least one, and the closing bracket. -/
def readItems : Nat → List Char → Option (List Draft × List Char)
  | 0, _ => none
  | fuel + 1, s => do
    let (item, rest) ← readDraft fuel s
    match skipBlanks rest with
    | ',' :: rest =>
      let (items, rest) ← readItems fuel rest
      return (item :: items, rest)
    | ']' :: rest => return ([item], rest)
    | _ => none

/-- Reads the fields of an object, at least one, and the closing brace. -/
def readFields : Nat → List Char → Option (List (Option String × Draft) × List Char)
  | 0, _ => none
  | fuel + 1, s => do
    let (key, rest) ← readString (skipBlanks s)
    match skipBlanks rest with
    | ':' :: rest =>
      let (value, rest) ← readDraft fuel rest
      match skipBlanks rest with
      | ',' :: rest =>
        let (fields, rest) ← readFields fuel rest
        return ((key, value) :: fields, rest)
      | '}' :: rest => return ([(key, value)], rest)
      | _ => none
    | _ => none

end

namespace Draft

/-- Reads a text that is one draft. Of two steps of the reader one takes a character, so the
length of the text bounds the steps. -/
def read? (s : List Char) : Option Draft := do
  let (draft, rest) ← readDraft (2 * s.length + 2) s
  if (skipBlanks rest).isEmpty then some draft else none

mutual

/-- The value of a draft, if it has one with at most `levels` levels of arrays and objects. -/
def value? (levels : Nat) : Draft → Option Json
  | null => some .null
  | bool b => some (.bool b)
  | number n => n.map .number
  | string s => s.map .string
  | array items =>
    match levels with
    | 0 => none
    | levels + 1 => (itemValues? levels items).map .array
  | object fields =>
    match levels with
    | 0 => none
    | levels + 1 => (fieldValues? levels [] fields).map .object

def itemValues? (levels : Nat) : List Draft → Option (List Json)
  | [] => some []
  | item :: rest => do return (← value? levels item) :: (← itemValues? levels rest)

/-- The fields of an object, after those `before`. -/
def fieldValues? (levels : Nat) (before : List (String × Json)) :
    List (Option String × Draft) → Option (List (String × Json))
  | [] => some before
  | (key, value) :: rest => do
    fieldValues? levels (Fields.set before (← key) (← value? levels value)) rest

end

end Draft

/-- Values nest at most this deep. -/
def maxLevels : Nat := 127

/-- Reads a text that is one JSON value. -/
def read? (s : List Char) : Option Json := (Draft.read? s).bind (Draft.value? maxLevels)

end SnippetRunner.Json
