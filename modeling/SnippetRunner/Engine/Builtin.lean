import SnippetRunner.Capability
import SnippetRunner.Engine.Object
import SnippetRunner.Script.Capture

/-
  The objects that are there before a script runs, and the names that stand for them. They take
  the first places of every store.
-/
namespace SnippetRunner.Engine

open SnippetRunner.Script

inductive Builtin where
  | prototype (species : Species)
  | function (role : Role)
  | console
  | exports
  | module
  deriving DecidableEq, Repr

namespace Builtin

def consoleMethods : List String := ["log", "info", "warn", "error", "debug"]

/-- The names that stand for what the engine does not offer. -/
def unavailableNames : List String := Capability.all.flatMap Capability.globals

def roles : List Role :=
  Species.all.map .construct ++ [.follow, .settle true, .settle false, .capture]
    ++ consoleMethods.map .log ++ unavailableNames.map .unavailable

def all : List Builtin :=
  Species.all.map prototype ++ roles.map function ++ [console, exports, module]

def place (b : Builtin) : Nat := all.idxOf b

def datum (b : Builtin) : Datum := .object b.place

end Builtin

/-! ## Making objects -/

/-- A new object of a species. -/
def Species.make (species : Species) (kind : ObjectKind)
    (properties : List (String × Property)) : Object :=
  ⟨kind, some (Builtin.prototype species).place, properties⟩

namespace Object

def ofRole (role : Role) (name : String) : Object :=
  Species.function.make (.function role) [("name", .fixed (.string name)),
    (lengthKey, .fixed (.number (.zero false)))]

def ofItems (items : List Datum) : Object :=
  Species.array.make (.array items.length)
    (items.zipIdx.map fun (item, index) => (Nat.repr index, .ordinary item))

def ofSettlement (settlement : Settlement) : Object :=
  Species.promise.make (.promise settlement) []

/-- An error; without a message it has the one of its prototype, which is empty. -/
def ofError (kind : ErrorKind) (message : Option String) (stack : String) : Object :=
  (Species.error kind).make .error
    ((message.map fun text => ("message", .unlisted (.string text))).toList
      ++ [("stack", .unlisted (.string stack))])

end Object

namespace Species

/-- The prototype of a prototype. -/
def parent? : Species → Option Species
  | object => none
  | error .general => some object
  | error _ => some (error .general)
  | _ => some object

def prototypeKind : Species → ObjectKind
  | function => .function .nothing
  | array => .array 0
  | _ => .plain

/-- What the objects of a species have in common. -/
def sharedProperties (species : Species) : List (String × Property) :=
  let own : List (String × Datum) :=
    match species with
    | promise => [("then", (Builtin.function .follow).datum)]
    | error kind => [("name", .string kind.name), ("message", .string "")]
    | _ => []
  (("constructor", (Builtin.function (.construct species)).datum) :: own).map fun (key, d) =>
    (key, .unlisted d)

def prototypeObject (species : Species) : Object :=
  ⟨species.prototypeKind, species.parent?.map fun parent => (Builtin.prototype parent).place,
    species.sharedProperties⟩

end Species

namespace Role

def name : Role → String
  | construct species => species.name
  | follow => "then"
  | settle fulfilled => if fulfilled then "resolve" else "reject"
  | _ => ""

/-- The functions that are properties of a function. -/
def carried : Role → List Role
  | construct .promise => [settle true, settle false]
  | _ => []

def object (role : Role) : Object :=
  role.carried.foldl (fun o inner =>
    o.setProperty inner.name (.unlisted (Builtin.function inner).datum)) (.ofRole role role.name)

end Role

namespace Builtin

def object : Builtin → Object
  | prototype species => species.prototypeObject
  | function role => role.object
  | console => Species.object.make .plain
      (consoleMethods.map fun method => (method, .ordinary (function (.log method)).datum))
  | exports => Species.object.make .plain []
  | module => Species.object.make .plain [("exports", .ordinary exports.datum)]

/-- The store before a script runs. -/
def store : Store := all.map object

/-- The names that every script may use. -/
def names : List (String × Datum) :=
  [("undefined", .undefined), ("NaN", .number .nan), ("Infinity", .number (.infinite false)),
    ("console", console.datum), ("exports", exports.datum), ("module", module.datum),
    (String.ofList captureFunction, (function .capture).datum)]
    ++ ([Species.promise, .symbol] ++ ErrorKind.all.map Species.error).map
      (fun species => (species.name, (function (.construct species)).datum))
    ++ unavailableNames.map fun name => (name, (function (.unavailable name)).datum)

end Builtin

end SnippetRunner.Engine
