import SnippetRunner.Fields
import SnippetRunner.Number.Double
import SnippetRunner.Text.Numeral

/-
  The objects of scripts in the isolated engine. An object has a kind and properties of its own;
  what it lacks it takes from its prototype. Objects stand in a store and are referred to by
  their place in it.
-/
namespace SnippetRunner.Engine

open SnippetRunner.Text

/-- What a name or a property holds: a plain value, or the place of an object. -/
inductive Datum where
  | undefined
  | null
  | bool (b : Bool)
  | number (d : Double)
  | bigint (n : Int)
  | string (s : String)
  | symbol (description : Option String)
  | object (place : Nat)
  deriving DecidableEq, Repr, Inhabited

inductive ErrorKind where
  | general
  | wrongType
  | outOfRange
  | malformed
  | unknownName
  deriving DecidableEq, Repr

namespace ErrorKind

def all : List ErrorKind := [general, wrongType, outOfRange, malformed, unknownName]

def name : ErrorKind → String
  | general => "Error"
  | wrongType => "TypeError"
  | outOfRange => "RangeError"
  | malformed => "SyntaxError"
  | unknownName => "ReferenceError"

end ErrorKind

/-- The families of objects that have a constructor and a prototype in common. -/
inductive Species where
  | object
  | function
  | array
  | promise
  | symbol
  | error (kind : ErrorKind)
  deriving DecidableEq, Repr

namespace Species

def all : List Species :=
  [object, function, array, promise, symbol] ++ ErrorKind.all.map error

def name : Species → String
  | object => "Object"
  | function => "Function"
  | array => "Array"
  | promise => "Promise"
  | symbol => "Symbol"
  | error kind => kind.name

end Species

/-- What a call of a function does. -/
inductive Role where
  | construct (species : Species)
  /-- Follows the promise that it is called on. -/
  | follow
  /-- Makes a promise that is settled. -/
  | settle (fulfilled : Bool)
  | log (method : String)
  | capture
  | nothing
  /-- Fails, as does every other use of it. -/
  | unavailable (name : String)
  deriving DecidableEq, Repr

/-- The end that a promise has come to, if it has. -/
inductive Settlement where
  /-- Whatever the `then` of a datum will do. -/
  | pending (followed : Datum)
  | fulfilled (d : Datum)
  | rejected (d : Datum)
  deriving DecidableEq, Repr

inductive ObjectKind where
  | plain
  | array (length : Nat)
  | error
  | function (role : Role)
  | promise (settlement : Settlement)
  deriving DecidableEq, Repr

structure Property where
  value : Datum
  /-- Whether it is among the keys of its object. -/
  listed : Bool
  writable : Bool
  deriving DecidableEq, Repr

structure Object where
  kind : ObjectKind
  /-- The place of the prototype. -/
  prototype : Option Nat
  properties : List (String × Property)
  deriving DecidableEq, Repr

abbrev Store := List Object

namespace Property

def ordinary (value : Datum) : Property := ⟨value, true, true⟩

/-- One that can be changed but is not listed. -/
def unlisted (value : Datum) : Property := ⟨value, false, true⟩

def fixed (value : Datum) : Property := ⟨value, false, false⟩

end Property

namespace Object

def lengthKey : String := "length"

/-- The greatest length of an array. -/
def maxLength : Nat := 4294967295

def ownProperty? (o : Object) (key : String) : Option Property :=
  match o.kind with
  | .array length =>
    if key = lengthKey then some (.unlisted (.number (.ofNat length)))
    else Fields.get? o.properties key
  | _ => Fields.get? o.properties key

def setProperty (o : Object) (key : String) (p : Property) : Object :=
  { o with properties := Fields.set o.properties key p }

/-- The name of the function that every use of this object fails with, if it is one. -/
def unavailable? (o : Object) : Option String :=
  match o.kind with
  | .function (.unavailable name) => some name
  | _ => none

def settlement? (o : Object) : Option Settlement :=
  match o.kind with
  | .promise settlement => some settlement
  | _ => none

/-- The index that a key is the text of. -/
def itemIndex? (key : String) : Option Nat :=
  let index := digitsValue key.toList
  if Nat.repr index = key && index < maxLength then some index else none

/-- The keys of items come first, in the order of their indices; others stay as they were made. -/
def listedKeys (o : Object) : List String :=
  let keys := Fields.keys (o.properties.filter (·.2.listed))
  let items := keys.filterMap fun key => (itemIndex? key).map fun index => (index, key)
  (items.mergeSort fun a b => a.1 ≤ b.1).map Prod.snd ++ keys.filter (itemIndex? · |>.isNone)

/-- Makes an array of an object, without the items from `length` on. -/
def resize (o : Object) (length : Nat) : Object :=
  { o with
    kind := .array length
    properties := o.properties.filter fun (key, _) => (itemIndex? key).all (· < length) }

end Object

end SnippetRunner.Engine
