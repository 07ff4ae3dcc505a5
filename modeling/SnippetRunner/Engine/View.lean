import SnippetRunner.Engine.Coercion
import SnippetRunner.Heap.Inspect

/-
  How the objects of a store are shown. Objects and arrays keep their places in the heap that is
  inspected; errors, functions and promises are shown without what they hold.
-/
namespace SnippetRunner.Engine

def Settlement.state : Settlement → PromiseState
  | pending _ => .pending
  | fulfilled _ => .fulfilled
  | rejected _ => .rejected

namespace Store

def view (s : Store) : Datum → Value
  | .undefined => .undefined
  | .null => .null
  | .bool b => .bool b
  | .number d => .number d
  | .bigint n => .bigint (Int.repr n)
  | .string text => .string text
  | .symbol description => .symbol description
  | .object place =>
    match (s[place]?).map Object.kind with
    | some .error => .error ((s.text? place "name").getD "") ((s.text? place "message").getD "")
    | some (.function _) => .function (s.text? place "name")
    | some (.promise settlement) => .promise settlement.state
    | _ => .ref place

/-- The object at `place` as it is inspected. A prototype that has none itself is left out. -/
def viewObject (s : Store) (place : Nat) (o : Object) : HeapObject where
  className := s.className? place
  entries := o.listedKeys.filterMap fun key =>
    (o.ownProperty? key).map fun p => (key, s.view p.value)
  hidden := (o.properties.filter (!·.2.listed)).map fun (key, p) => (key, s.view p.value)
  prototype := o.prototype.bind fun p =>
    if ((s[p]?).bind Object.prototype).isSome then some (.ref p) else none
  arrayLength :=
    match o.kind with
    | .array length => some length
    | _ => none

def heap (s : Store) : Heap := s.mapIdx s.viewObject

/-- The snapshot of a datum. Only objects need the heap to be looked at. -/
def snapshot (s : Store) (d : Datum) : Snapshot :=
  match s.view d with
  | .ref place => s.heap.inspect (.ref place)
  | v => Heap.inspect [] v

end Store

end SnippetRunner.Engine
