import SnippetRunner.Number.Decimal

/-
  JSON values. Objects keep the order of their fields; a key occurs once.
-/
namespace SnippetRunner

/-- Numbers are whole or finite doubles; both kinds are told apart by how they were written. -/
inductive JsonNumber where
  | int (n : Int)
  | double (d : Double) (finite : d.isFinite = true)
  deriving DecidableEq, Repr

inductive Json where
  | null
  | bool (b : Bool)
  | number (n : JsonNumber)
  | string (s : String)
  | array (items : List Json)
  | object (fields : List (String × Json))
  deriving Repr, Inhabited

namespace JsonNumber

/-- A double as a number; infinity and NaN are none. -/
def ofDouble? (d : Double) : Option JsonNumber :=
  if finite : d.isFinite = true then some (double d finite) else none

def toDouble : JsonNumber → Double
  | int n => Double.ofInt n
  | double d _ => d

/-- The number as a count, if it was written as one. -/
def toNat? : JsonNumber → Option Nat
  | int n => n.toNat?
  | double .. => none

def text : JsonNumber → String
  | int n => toString n
  | double d _ => d.format .json

end JsonNumber

namespace Json

def nat (n : Nat) : Json := number (.int n)

/-- A double as a number, and null if it is not finite. -/
def double (d : Double) : Json := ((JsonNumber.ofDouble? d).map number).getD null

def optional {α : Type} (encode : α → Json) (value : Option α) : Json :=
  (value.map encode).getD null

def string? : Json → Option String
  | string s => some s
  | _ => none

def array? : Json → Option (List Json)
  | array items => some items
  | _ => none

def object? : Json → Option (List (String × Json))
  | object fields => some fields
  | _ => none

def nat? : Json → Option Nat
  | number n => n.toNat?
  | _ => none

@[simp] theorem nat?_nat (n : Nat) : (nat n).nat? = some n := rfl

@[simp] theorem string?_string (s : String) : (string s).string? = some s := rfl

end Json

end SnippetRunner
