import SnippetRunner.Number.Decimal

/-
  Snapshots of values. A snapshot is a finite tree that can be sent and shown without the
  program that made the value: what cannot be kept is replaced by a marker.
-/
namespace SnippetRunner

inductive PromiseState where
  | pending
  | fulfilled
  | rejected
  deriving DecidableEq, Repr

namespace PromiseState

def name : PromiseState → String
  | pending => "pending"
  | fulfilled => "fulfilled"
  | rejected => "rejected"

/-- The state of a name; an unknown name counts as pending. -/
def ofName (name : String) : PromiseState :=
  if name = "fulfilled" then fulfilled else if name = "rejected" then rejected else pending

end PromiseState

inductive Snapshot where
  | null
  | bool (b : Bool)
  /-- A whole number, infinity or NaN. -/
  | number (d : Double)
  /-- Any other number, by its decimal text. -/
  | decimal (text : String)
  | string (s : String)
  | undefined
  | function (name : String)
  | symbol (description : String)
  /-- A reference to an object that the snapshot is inside of. -/
  | circular (name : String)
  /-- A value below the greatest depth. -/
  | maxDepth
  /-- The items of an array that were left out. -/
  | truncated (count : Nat)
  | error (message : String)
  | promise (state : PromiseState)
  | array (length : Nat) (items : List Snapshot)
  | object (name : String) (props : List (String × Snapshot))
  deriving Repr, Inhabited

namespace Snapshot

def defaultObjectName : String := "Object"

/-- The text of a number that is not whole: with an exponent below `10^-6` and from `10^21` on. -/
def decimalText (d : Double) : String :=
  if d.magnitudeLt (Double.ofDecimal false 1 (-6)) || !d.magnitudeLt (Double.ofDecimal false 1 21)
  then d.format .exponential else d.format .plain

def ofDouble (d : Double) : Snapshot :=
  if d.isFinite && !d.isIntegral then decimal (decimalText d) else number d

/-- The placeholder for a value that could not be read. -/
def unserializable (reason : String) : Snapshot :=
  string ("[Unserializable: " ++ reason ++ "]")

/-- The text of an error: its name and message, as far as they are not empty. -/
def errorText (name message : String) : String :=
  if name.isEmpty then message
  else if message.isEmpty then name
  else name ++ ": " ++ message

def isUndefined : Snapshot → Bool
  | undefined => true
  | _ => false

/-- The properties of an object; other snapshots have none. -/
def props? : Snapshot → Option (List (String × Snapshot))
  | object _ props => some props
  | _ => none

theorem props?_eq_some {s : Snapshot} {props : List (String × Snapshot)}
    (h : s.props? = some props) : ∃ name, s = object name props := by
  unfold props? at h
  split at h
  · next name _ =>
    obtain rfl := Option.some.inj h
    exact ⟨name, rfl⟩
  · cases h

mutual

/-- Equality of snapshots, in which numbers are compared as numbers. -/
def same : Snapshot → Snapshot → Bool
  | null, null => true
  | bool a, bool b => a = b
  | number a, number b => a.numEq b
  | decimal a, decimal b => a = b
  | string a, string b => a = b
  | undefined, undefined => true
  | function a, function b => a = b
  | symbol a, symbol b => a = b
  | circular a, circular b => a = b
  | maxDepth, maxDepth => true
  | truncated a, truncated b => a = b
  | error a, error b => a = b
  | promise a, promise b => a = b
  | array n as, array m bs => n = m && sameItems as bs
  | object n as, object m bs => n = m && sameProps as bs
  | _, _ => false

def sameItems : List Snapshot → List Snapshot → Bool
  | [], [] => true
  | a :: as, b :: bs => same a b && sameItems as bs
  | _, _ => false

def sameProps : List (String × Snapshot) → List (String × Snapshot) → Bool
  | [], [] => true
  | (k, a) :: as, (l, b) :: bs => k = l && same a b && sameProps as bs
  | _, _ => false

end

end Snapshot

end SnippetRunner
