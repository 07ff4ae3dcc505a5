import SnippetRunner.Fields
import SnippetRunner.Inspectable
import SnippetRunner.Heap.AudioProperties

/-
  Taking a snapshot of a value. The tree is cut where it is too deep, where an array is too long,
  and where an object is met inside itself. To know the last, the inspector keeps a stack of the
  arrays and objects that it is inside of. What it does with one value is written for any way to
  visit the values in it.
-/
namespace SnippetRunner.Inspectable

/-- Values deeper than this are left out. -/
def maxDepth : Nat := 10

/-- The items of an array that are shown. -/
def maxItems : Nat := 100

/-- The property that shows a prototype. -/
def prototypeKey : String := "[[Prototype]]"

variable {V : Type} (view : Inspectable V)

def objectName (v : V) : String := (view.className? v).getD Snapshot.defaultObjectName

section Visiting

variable {m : Type → Type} [Monad m] (visit : V → m Snapshot)

/-- The snapshot of the property `key` of `v`, if it has one. -/
def readSlot? (v : V) (key : String) : m (Option Snapshot) :=
  match view.property v key with
  | .ok (some child) => some <$> visit child
  | .ok none => return none
  | .error reason => return some (.unserializable reason)

def readSlot (v : V) (key : String) : m Snapshot :=
  return (← view.readSlot? visit v key).getD .undefined

/-- The snapshots of properties, in order. -/
def readAll (v : V) : List String → m (List (String × Snapshot))
  | [] => return []
  | key :: keys => return (key, ← view.readSlot visit v key) :: (← readAll v keys)

/-- The snapshots of those properties that `v` has, in order. -/
def readPresent (v : V) : List String → m (List (String × Snapshot))
  | [] => return []
  | key :: keys => do
    let value ← view.readSlot? visit v key
    let rest ← readPresent v keys
    return (value.map fun value => (key, value)).toList ++ rest

/-- The items that are shown, and a marker for those that are not. -/
def visitArray (v : V) (length : Nat) : m Snapshot := do
  let shown ← view.readAll visit v ((List.range (min length maxItems)).map Nat.repr)
  return .array length
    (shown.map Prod.snd ++ if maxItems < length then [.truncated (length - maxItems)] else [])

/-- The listed properties of `v`, or else those that its prototypes list. -/
def plainProps (v : V) : m (List (String × Snapshot)) := do
  let own ← view.readAll visit v (Fields.firstOccurrences (view.ownKeys v))
  if own.isEmpty then view.readAll visit v (Fields.firstOccurrences (view.inheritedKeys v))
  else return own

/-- Adds the prototype of `v` if it shows more properties than `v` itself. -/
def withPrototype (v : V) (props : List (String × Snapshot)) : m (List (String × Snapshot)) :=
  match view.prototype? v with
  | none => return props
  | some p => do
    match (← visit p).props? with
    | some shown =>
      if props.length < shown.length then
        return Fields.set props prototypeKey (.object (view.objectName p) shown)
      else return props
    | none => return props

/-- What an audio object shows. -/
def curatedProps (v : V) : m (List (String × Snapshot)) :=
  match AudioProperties.find? (view.objectName v) with
  | some keys => view.readPresent visit v (Fields.firstOccurrences keys)
  | none => return []

def visitObject (v : V) : m Snapshot := do
  let curated ← view.curatedProps visit v
  if curated.isEmpty then
    let props ← view.plainProps visit v
    return .object (view.objectName v) (← view.withPrototype visit v props)
  else return .object (view.objectName v) curated

/-- The snapshot of an array or object from the values in it. -/
def visitContent (v : V) : m Snapshot :=
  match view.kind v with
  | .array length => view.visitArray visit v length
  | _ => view.visitObject visit v

/-- What `body` gives with `v` on the stack; if `v` is inside of itself, only its name. -/
def enter [MonadStateOf (List V) m] (v : V) (body : m Snapshot) : m Snapshot := do
  if (← get).any (view.sameReference · v) then return .circular (view.objectName v)
  else
    modify (v :: ·)
    let shown ← body
    modify List.tail
    return shown

/-- The snapshot of a value that is not too deep. -/
def visitInside [MonadStateOf (List V) m] (v : V) : m Snapshot :=
  match (view.kind v).leaf? with
  | some shown => return shown
  | none => view.enter v (view.visitContent visit v)

end Visiting

/-- The snapshot of a value inside of those on the stack, with `levels` levels left. -/
def visit : (levels : Nat) → V → StateM (List V) Snapshot
  | 0, _ => return .maxDepth
  | levels + 1, v => view.visitInside (visit levels) v

/-- The snapshot of a value. -/
def inspect (v : V) : Snapshot := ((view.visit (maxDepth + 1) v).run []).1

end SnippetRunner.Inspectable
