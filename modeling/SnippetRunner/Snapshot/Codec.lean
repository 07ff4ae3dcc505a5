import SnippetRunner.Fields
import SnippetRunner.Json
import SnippetRunner.Snapshot

/-
  Snapshots as JSON. Null, booleans, strings and whole numbers stand for themselves; everything
  else is an object with a tag. Decoding never fails: JSON that was not made by encoding gives
  the nearest snapshot.
-/
namespace SnippetRunner.Snapshot

def typeTag : String := "__type"

/-- Whole numbers up to here are written as integers. -/
def maxSafeInteger : Nat := 9007199254740991

def encodeNumber (d : Double) : Json :=
  let special (name : String) : Json :=
    .object [(typeTag, .string "number"), ("value", .string name)]
  match d with
  | .nan => special "NaN"
  | .infinite negative => special (if negative then "-Infinity" else "Infinity")
  | .finite .. =>
    match d.toInt? with
    | some n => if n.natAbs ≤ maxSafeInteger then .number (.int n) else .double d
    | none => .double d

def tagged (tag : String) (fields : List (String × Json)) : Json :=
  .object ((typeTag, .string tag) :: fields)

mutual

def encode : Snapshot → Json
  | null => .null
  | bool b => .bool b
  | number d => encodeNumber d
  | decimal text => tagged "number" [("value", .string text)]
  | string s => .string s
  | undefined => tagged "undefined" []
  | function name => tagged "function" [("name", .string name)]
  | symbol description => tagged "symbol" [("description", .string description)]
  | circular name => tagged "circular" [("name", .string name)]
  | maxDepth => tagged "maxDepth" []
  | truncated count => tagged "truncated" [("count", .nat count)]
  | error message => tagged "error" [("message", .string message)]
  | promise state => tagged "promise" [("state", .string state.name)]
  | array length items =>
    tagged "array" [("length", .nat length), ("items", .array (encodeItems items))]
  | object name props =>
    tagged "object" [("name", .string name), ("props", .object (encodeProps props))]

def encodeItems : List Snapshot → List Json
  | [] => []
  | item :: rest => encode item :: encodeItems rest

def encodeProps : List (String × Snapshot) → List (String × Json)
  | [] => []
  | (key, value) :: rest => (key, encode value) :: encodeProps rest

end

def decodeNumber (n : JsonNumber) : Snapshot :=
  let d := n.toDouble
  if d.isIntegral then number d else decimal n.text

/-- What a JSON value can stand for: a snapshot, and, where a tagged object asks for them, the
items of an array or the properties of an object. -/
structure Reading where
  value : Snapshot
  items : List Snapshot
  props : List (String × Snapshot)

namespace Reading

def leaf (value : Snapshot) : Reading := ⟨value, [], []⟩

/-- The properties that the fields of an object stand for. -/
def propsOf (readings : List (String × Reading)) : List (String × Snapshot) :=
  readings.map fun (key, reading) => (key, reading.value)

end Reading

def textField (fields : List (String × Json)) (key : String) : String :=
  ((Fields.get? fields key).bind Json.string?).getD ""

def countField? (fields : List (String × Json)) (key : String) : Option Nat :=
  (Fields.get? fields key).bind Json.nat?

def readingField (readings : List (String × Reading)) (key : String) : Reading :=
  (Fields.get? readings key).getD (.leaf null)

def numberNamed (text : String) : Snapshot :=
  if text = "NaN" then number .nan
  else if text = "Infinity" then number (.infinite false)
  else if text = "-Infinity" then number (.infinite true)
  else decimal text

/-- The snapshot that an object with a tag stands for. An unknown tag is a property like others. -/
def ofTag (tag : String) (fields : List (String × Json)) (readings : List (String × Reading)) :
    Snapshot :=
  match tag with
  | "undefined" => undefined
  | "number" => numberNamed (textField fields "value")
  | "function" => function (textField fields "name")
  | "symbol" => symbol (textField fields "description")
  | "circular" => circular (textField fields "name")
  | "maxDepth" => maxDepth
  | "truncated" => truncated ((countField? fields "count").getD 0)
  | "error" => error (textField fields "message")
  | "promise" => promise (.ofName (textField fields "state"))
  | "array" =>
    let items := (readingField readings "items").items
    array ((countField? fields "length").getD items.length) items
  | "object" =>
    let name := ((Fields.get? fields "name").bind Json.string?).getD defaultObjectName
    object name (readingField readings "props").props
  | _ => object defaultObjectName (Reading.propsOf readings)

/-- The snapshot that an object stands for. -/
def ofFields (fields : List (String × Json)) (readings : List (String × Reading)) : Snapshot :=
  match (Fields.get? fields typeTag).bind Json.string? with
  | some tag => ofTag tag fields readings
  | none => object defaultObjectName (Reading.propsOf readings)

mutual

def reading : Json → Reading
  | .null => .leaf null
  | .bool b => .leaf (bool b)
  | .number n => .leaf (decodeNumber n)
  | .string s => .leaf (string s)
  | .array items =>
    let items := readItems items
    ⟨array items.length items, items, []⟩
  | .object fields =>
    let readings := readFields fields
    ⟨ofFields fields readings, [], Reading.propsOf readings⟩

def readItems : List Json → List Snapshot
  | [] => []
  | item :: rest => (reading item).value :: readItems rest

def readFields : List (String × Json) → List (String × Reading)
  | [] => []
  | (key, value) :: rest => (key, reading value) :: readFields rest

end

/-- The snapshot that a JSON value stands for. -/
def decode (j : Json) : Snapshot := (reading j).value

end SnippetRunner.Snapshot
