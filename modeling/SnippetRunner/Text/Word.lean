import SnippetRunner.Text.WordTable

/-
  Word characters. A word boundary lies between a word character and anything else; identifiers
  and keywords are matched up to one.
-/
namespace SnippetRunner.Text

def inRanges (table : List (Nat × Nat)) (c : Char) : Bool :=
  table.any fun (low, high) => low ≤ c.toNat && c.toNat ≤ high

/-- Alphabetic characters, marks, decimal digits, connectors and joiners. -/
def isWord (c : Char) : Bool :=
  if c.toNat < 128 then c.isAlphanum || c = '_'
  else inRanges letterRanges c || inRanges markRanges c

/-- Alphabetic characters and numbers of every kind. -/
def isAlphanumeric (c : Char) : Bool :=
  if c.toNat < 128 then c.isAlphanum
  else inRanges letterRanges c || inRanges otherNumberRanges c

/-- Decimal digits of every script. -/
def isDigit (c : Char) : Bool :=
  if c.toNat < 128 then c.isDigit else inRanges digitRanges c

/-- No word goes on at the head of `rest`. -/
def wordEnds (rest : List Char) : Bool := !rest.head?.any isWord

end SnippetRunner.Text
