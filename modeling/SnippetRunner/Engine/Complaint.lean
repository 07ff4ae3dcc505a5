import SnippetRunner.Engine.Object

/-
  The errors that the engine itself raises in a script.
-/
namespace SnippetRunner.Engine

inductive Complaint where
  | undeclared (name : String)
  /-- The name is declared further on. -/
  | uninitialized (name : String)
  | notFunction
  | notConstructor
  | notObject
  /-- A property of undefined or null was read. -/
  | readOfNothing (key holder : String)
  /-- A property of undefined or null was set. -/
  | setOfNothing (key holder : String)
  | readOnly (key : String)
  | noSetter
  | circularPrototype
  | badLength
  /-- A datum of this type was used where one of another type belongs. -/
  | notConvertible (type other : String)
  | unavailable (name : String)
  deriving DecidableEq, Repr

namespace Complaint

def kind : Complaint → ErrorKind
  | undeclared _ => .unknownName
  | uninitialized _ => .unknownName
  | badLength => .outOfRange
  | unavailable _ => .general
  | _ => .wrongType

def message : Complaint → String
  | undeclared name => name ++ " is not defined"
  | uninitialized name => name ++ " is not initialized"
  | notFunction => "not a function"
  | notConstructor => "not a constructor"
  | notObject => "not an object"
  | readOfNothing key holder => "cannot read property '" ++ key ++ "' of " ++ holder
  | setOfNothing key holder => "cannot set property '" ++ key ++ "' of " ++ holder
  | readOnly key => "'" ++ key ++ "' is read-only"
  | noSetter => "no setter for property"
  | circularPrototype => "circular prototype chain"
  | badLength => "invalid array length"
  | notConvertible type other => "cannot convert " ++ type ++ " to " ++ other
  | unavailable name => name ++ " is not available in this runtime"

end Complaint

end SnippetRunner.Engine
