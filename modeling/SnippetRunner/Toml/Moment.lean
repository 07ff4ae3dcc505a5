import SnippetRunner.Text.Numeral
import SnippetRunner.Text.Split

/-
  Dates and times of TOML text, as normalized text.
-/
namespace SnippetRunner.Toml

open SnippetRunner.Text

/-- Reads a number of exactly `count` digits from `low` to `high`. -/
def readField (count low high : Nat) (s : List Char) : Option (Nat × List Char) :=
  let digits := s.take count
  let n := digitsValue digits
  if digits.length = count && digits.all Char.isDigit && low ≤ n && n ≤ high then
    some (n, s.drop count)
  else none

def readSeparator (c : Char) (s : List Char) : Option (List Char) := dropStart? [c] s

def isLeapYear (year : Nat) : Bool := year % 4 = 0 && (year % 100 ≠ 0 || year % 400 = 0)

def daysInMonth (year month : Nat) : Nat :=
  if month = 2 then if isLeapYear year then 29 else 28
  else if month = 4 || month = 6 || month = 9 || month = 11 then 30
  else 31

/-- The text between `s` and its end part `rest`. -/
def textBefore (s rest : List Char) : List Char := s.take (s.length - rest.length)

/-- Reads a date. -/
def readDate (s : List Char) : Option (List Char × List Char) := do
  let (year, rest) ← readField 4 0 9999 s
  let (month, rest) ← readField 2 1 12 (← readSeparator '-' rest)
  let (_, rest) ← readField 2 1 (daysInMonth year month) (← readSeparator '-' rest)
  return (textBefore s rest, rest)

/-- Nine digits of a fraction are kept, without zeros at the end. -/
def fractionOfSecond (digits : List Char) : List Char :=
  let kept := ((digits.take 9).reverse.dropWhile (· = '0')).reverse
  if kept.isEmpty then [] else '.' :: kept

/-- What is accepted beside dates and times of day. -/
structure MomentRule where
  /-- The last hour of a day. -/
  lastHour : Nat
  /-- The greatest numbers in a distance from universal time, which is a day at most. -/
  offsetHours : Nat
  offsetMinutes : Nat
  /-- Whether a distance may follow a date without a time. -/
  dateOffset : Bool

namespace MomentRule

/-- A moment among the values of a document. -/
def value : MomentRule := ⟨23, 23, 59, false⟩

/-- A moment in a string. -/
def text : MomentRule := ⟨24, 99, 99, true⟩

end MomentRule

/-- Reads a time of day; a minute may have a leap second. -/
def readTime (rule : MomentRule) (s : List Char) : Option (List Char × List Char) := do
  let (_, rest) ← readField 2 0 rule.lastHour s
  let (_, rest) ← readField 2 0 59 (← readSeparator ':' rest)
  let (_, rest) ← readField 2 0 60 (← readSeparator ':' rest)
  let clock := textBefore s rest
  match rest with
  | '.' :: rest =>
    let (digits, rest) := spanDigits rest
    if digits.isEmpty then none
    else some (clock ++ fractionOfSecond digits, rest)
  | _ => some (clock, rest)

def twoDigits (n : Nat) : List Char :=
  (if n < 10 then ['0'] else []) ++ (Nat.repr n).toList

/-- The distance from universal time that is all of `s`. No distance has a plus sign. -/
def offset? (rule : MomentRule) : List Char → Option (List Char)
  | [] => some []
  | sign :: s =>
    if s.isEmpty && (sign = 'Z' || sign = 'z') then some ['Z']
    else if sign = '+' || sign = '-' then do
      let (hours, rest) ← readField 2 0 rule.offsetHours s
      let (minutes, rest) ← readField 2 0 rule.offsetMinutes (← readSeparator ':' rest)
      let total := hours * 60 + minutes
      let sign := if total = 0 then '+' else sign
      if rest.isEmpty && total ≤ 1440 then
        some (sign :: twoDigits (total / 60) ++ ':' :: twoDigits (total % 60))
      else none
    else none

/-- A date, a time of day or both; with both there may be a distance from universal time. -/
def moment? (rule : MomentRule) (s : List Char) : Option (List Char) :=
  match readDate s with
  | some (date, []) => some date
  | some (date, mark :: rest) => do
    if mark = 'T' || mark = 't' || mark = ' ' then
      let (time, rest) ← readTime rule rest
      return date ++ 'T' :: time ++ (← offset? rule rest)
    else if rule.dateOffset then return date ++ (← offset? rule (mark :: rest))
    else none
  | none => do
    let (time, rest) ← readTime rule s
    if rest.isEmpty then some time else none

end SnippetRunner.Toml
