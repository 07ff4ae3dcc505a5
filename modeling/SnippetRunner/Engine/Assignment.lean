import SnippetRunner.Engine.Coercion

/-
  Setting properties. What is no object has none to set; of an object, a property that can be
  found must be writable, the length of an array cuts or extends it, and one key stands for the
  prototype.
-/
namespace SnippetRunner.Engine.Store

/-- The key that stands for the prototype of an ordinary object. -/
def prototypeKey : String := "__proto__"

/-- Sets the prototype to an object or to none; other data are ignored. -/
def setPrototype (s : Store) (place : Nat) : Datum → Except Complaint Store
  | .null => .ok (s.modify place ({ · with prototype := none }))
  | .object p =>
    if (s.lineage p).contains place then .error .circularPrototype
    else .ok (s.modify place ({ · with prototype := some p }))
  | _ => .ok s

/-- The length that a datum stands for. -/
def toLength (s : Store) (d : Datum) : Except Complaint Nat := do
  match (← s.toNumber d).toInt? with
  | some n => if 0 ≤ n && n ≤ Object.maxLength then return n.toNat else throw .badLength
  | none => throw .badLength

/-- Why a plain value has no property to set. -/
def refusal : Datum → String → Complaint
  | .undefined, key => .setOfNothing key "undefined"
  | .null, key => .setOfNothing key "null"
  | .string _, "length" => .readOnly "length"
  | .symbol _, "description" => .noSetter
  | _, _ => .notObject

/-- Sets a property of an object. -/
def assignAt (s : Store) (place : Nat) (o : Object) (key : String) (d : Datum) :
    Except Complaint Store :=
  match o.kind, (s.chain place).findSome? (·.ownProperty? key) with
  | .array _, some p =>
    if key = Object.lengthKey then do
      let length ← s.toLength d
      return s.modify place (·.resize length)
    else put p.writable
  | _, some p => put p.writable
  | _, none =>
    if key = prototypeKey && s.isOrdinary place then s.setPrototype place d else put true
where
  /-- Keeps what there is of the property but its value. -/
  put (writable : Bool) : Except Complaint Store :=
    let p := { (o.ownProperty? key).getD (.ordinary d) with value := d }
    if writable then .ok (s.modify place (·.setProperty key p)) else .error (.readOnly key)

/-- Sets a property of any datum. -/
def assign (s : Store) (target : Datum) (key : String) (d : Datum) : Except Complaint Store :=
  match s.object? target, target with
  | some o, .object place => s.assignAt place o key d
  | _, .undefined => .error (refusal target key)
  | _, .null => .error (refusal target key)
  | _, _ => if key = prototypeKey then .ok s else .error (refusal target key)

/-- Gives a new object a field. One under the key of the prototype sets that instead. -/
def define (s : Store) (place : Nat) (key : String) (d : Datum) : Except Complaint Store :=
  if key = prototypeKey then s.setPrototype place d
  else .ok (s.modify place (·.setProperty key (.ordinary d)))

end SnippetRunner.Engine.Store
