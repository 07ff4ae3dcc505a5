import SnippetRunner.Engine.Builtin
import SnippetRunner.Engine.Complaint

/-
  Reading the objects of a store. A property is that of the object or of the nearest prototype
  that has one.
-/
namespace SnippetRunner.Engine.Store

def object? (s : Store) : Datum → Option Object
  | .object place => s[place]?
  | _ => none

/-- The places of an object and of its prototypes, nearest first, at most `count` of them. -/
def lineageWithin (s : Store) : Nat → Nat → List Nat
  | 0, _ => []
  | count + 1, place =>
    match s[place]? with
    | some o => place :: (o.prototype.map (lineageWithin s count)).getD []
    | none => []

/-- The places of an object and of its prototypes. As no object is its own prototype, they are
not more than the store has. -/
def lineage (s : Store) (place : Nat) : List Nat := s.lineageWithin s.length place

def chain (s : Store) (place : Nat) : List Object := (s.lineage place).filterMap (s[·]?)

/-- Whether the object at `place` has what all ordinary objects have in common. -/
def isOrdinary (s : Store) (place : Nat) : Bool :=
  (s.lineage place).contains (Builtin.prototype .object).place

/-- The property of the first of `objects` that has it. An unavailable function refuses to tell. -/
def findAmong (key : String) : List Object → Except Complaint (Option Property)
  | [] => .ok none
  | o :: objects =>
    match o.unavailable? with
    | some name => .error (.unavailable name)
    | none =>
      match o.ownProperty? key with
      | some p => .ok (some p)
      | none => findAmong key objects

def find (s : Store) (place : Nat) (key : String) : Except Complaint (Option Property) :=
  findAmong key (s.chain place)

/-- The value of a property that can be read. -/
def get? (s : Store) (place : Nat) (key : String) : Option Datum :=
  match s.find place key with
  | .ok (some p) => some p.value
  | _ => none

/-- The value of a property that holds a text. -/
def text? (s : Store) (place : Nat) (key : String) : Option String :=
  match s.get? place key with
  | some (.string text) => some text
  | _ => none

/-- The name of the constructor of an object. -/
def className? (s : Store) (place : Nat) : Option String :=
  match s.get? place "constructor" with
  | some (.object constructor) => (s.text? constructor "name").filter (!·.isEmpty)
  | _ => none

end SnippetRunner.Engine.Store
