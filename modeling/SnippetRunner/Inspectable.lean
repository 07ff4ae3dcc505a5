import SnippetRunner.Snapshot

/-
  What inspecting asks of the values of a runtime. The kinds of values are a small fixed set, and
  whatever holds the values answers the same few questions about them.
-/
namespace SnippetRunner

/-- The kinds of values that are told apart. -/
inductive ValueKind where
  | undefined
  | null
  | bool (b : Bool)
  | number (d : Double)
  /-- A whole number of any size, by its digits. -/
  | bigint (digits : String)
  | string (s : String)
  | symbol (description : Option String)
  | function (name : Option String)
  | error (name message : String)
  | promise (state : PromiseState)
  | array (length : Nat)
  | object
  deriving DecidableEq, Repr

/-- The snapshot of a value that holds no others, and none for an array or an object. -/
def ValueKind.leaf? : ValueKind → Option Snapshot
  | undefined => some .undefined
  | null => some .null
  | bool b => some (.bool b)
  | number d => some (.ofDouble d)
  | bigint digits => some (.decimal digits)
  | string s => some (.string s)
  | symbol description => some (.symbol (description.getD ""))
  | function name => some (.function ((name.filter (!·.isEmpty)).getD "anonymous"))
  | error name message => some (.error (Snapshot.errorText name message))
  | promise state => some (.promise state)
  | array _ | object => none

/-- Values of the type `V`, as they are inspected. Reading a property may fail, because a runtime
runs accessors for it, and then gives the reason. -/
structure Inspectable (V : Type) where
  kind : V → ValueKind
  sameReference : V → V → Bool
  className? : V → Option String
  /-- The keys of the listed properties, in order. -/
  ownKeys : V → List String
  /-- The keys that the prototypes list. -/
  inheritedKeys : V → List String
  prototype? : V → Option V
  /-- The property of a key; the items of an array have their index as key. -/
  property : V → String → Except String (Option V)

end SnippetRunner
