import SnippetRunner.Heap
import SnippetRunner.Inspect

/-
  The values of a heap as they are inspected.
-/
namespace SnippetRunner.Heap

/-- An object is an array if it has a length. A property whose read fails is an empty object on
its own. -/
def kind (h : Heap) : Value → ValueKind
  | .undefined => .undefined
  | .null => .null
  | .bool b => .bool b
  | .number d => .number d
  | .bigint digits => .bigint digits
  | .string s => .string s
  | .symbol description => .symbol description
  | .function name => .function name
  | .error name message => .error name message
  | .promise state => .promise state
  | .failing _ => .object
  | .ref place => (((h.object? (.ref place)).bind HeapObject.arrayLength).map .array).getD .object

def view (h : Heap) : Inspectable Value where
  kind := h.kind
  sameReference := Value.sameReference
  className? := h.className?
  ownKeys := h.ownKeys
  inheritedKeys := h.inheritedKeys
  prototype? := h.prototype?
  property := h.property

/-- The snapshot of a value. -/
def inspect (h : Heap) (v : Value) : Snapshot := h.view.inspect v

end SnippetRunner.Heap
