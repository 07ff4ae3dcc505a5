import SnippetRunner.Fields
import SnippetRunner.Snapshot

/-
  Values with identity. Objects and arrays live in a heap and are referred to by their place in
  it; they may refer to each other in circles.
-/
namespace SnippetRunner

inductive Value where
  | undefined
  | null
  | bool (b : Bool)
  | number (d : Double)
  /-- A whole number of any size, by its digits. -/
  | bigint (digits : String)
  | string (s : String)
  | symbol (description : Option String)
  | function (name : Option String)
  | error (name message : String)
  | promise (state : PromiseState)
  /-- As a property, one whose read fails for `reason`; on its own an empty object. -/
  | failing (reason : String)
  | ref (place : Nat)
  deriving DecidableEq, Repr, Inhabited

/-- An object, or an array if it has a length. Hidden properties can be read but are not listed
among the keys. -/
structure HeapObject where
  className : Option String
  entries : List (String × Value)
  hidden : List (String × Value)
  prototype : Option Value
  arrayLength : Option Nat
  deriving DecidableEq, Repr, Inhabited

abbrev Heap := List HeapObject

namespace HeapObject

/-- The listed properties of an array with these items. -/
def itemEntries (items : List Value) : List (String × Value) :=
  items.zipIdx.map fun (item, index) => (Nat.repr index, item)

/-- An object without a prototype worth showing. -/
def plain (className : String) (entries : List (String × Value)) : HeapObject :=
  ⟨some className, entries, [], none, none⟩

def ofItems (items : List Value) : HeapObject :=
  ⟨some "Array", itemEntries items, [], none, some items.length⟩

def property? (o : HeapObject) (key : String) : Option Value :=
  Fields.get? (o.entries ++ o.hidden) key

end HeapObject

namespace Heap

def object? (h : Heap) : Value → Option HeapObject
  | .ref place => h[place]?
  | _ => none

def className? (h : Heap) (v : Value) : Option String := (h.object? v).bind HeapObject.className

/-- The keys of the listed properties, repetitions included. -/
def ownKeys (h : Heap) (v : Value) : List String :=
  ((h.object? v).map fun o => Fields.keys o.entries).getD []

def prototype? (h : Heap) (v : Value) : Option Value := (h.object? v).bind HeapObject.prototype

/-- The first `count` prototypes of `v`, nearest first. -/
def prototypes (h : Heap) : Nat → Value → List Value
  | 0, _ => []
  | count + 1, v =>
    match h.prototype? v with
    | some p => p :: prototypes h count p
    | none => []

/-- The prototypes of `v`. A chain that does not run in a circle visits each object of the heap
at most once. -/
def prototypeChain (h : Heap) (v : Value) : List Value := h.prototypes (h.length + 1) v

/-- The property of `v` or of the nearest prototype that has one; an error if its read fails. -/
def property (h : Heap) (v : Value) (key : String) : Except String (Option Value) :=
  match (v :: h.prototypeChain v).findSome? fun o => (h.object? o).bind (·.property? key) with
  | some (.failing reason) => .error reason
  | found => .ok found

end Heap

/-- The keys that the prototypes of `v` list, nearest first. -/
def Heap.inheritedKeys (h : Heap) (v : Value) : List String :=
  Fields.firstOccurrences ((h.prototypeChain v).flatMap h.ownKeys)

/-- Whether two values are the same object. -/
def Value.sameReference : Value → Value → Bool
  | .ref a, .ref b => a = b
  | _, _ => false

end SnippetRunner
