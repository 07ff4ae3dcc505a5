import SnippetRunner.Config.Path
import SnippetRunner.Fields
import SnippetRunner.Number.Decimal
import SnippetRunner.Number.Reading
import SnippetRunner.Run.Environment
import SnippetRunner.Text.Lower

/-
  Values in configuration files and variables. Values are layered: a table is laid over another
  key by key, anything else takes the place of what was there. Keys are compared in lower case.
-/
namespace SnippetRunner

open SnippetRunner.Text

inductive ConfigValue where
  /-- An item of a list that was not given. -/
  | absent
  | bool (b : Bool)
  | integer (n : Int)
  | float (d : Double)
  | text (s : String)
  | list (items : List ConfigValue)
  | table (fields : List (String × ConfigValue))
  deriving Repr, Inhabited

namespace ConfigValue

/-! ## Layers -/

/-- The fields of a table; anything else has none. -/
def fields : ConfigValue → List (String × ConfigValue)
  | table fields => fields
  | _ => []

mutual

/-- Lays a value over the field `key`. What has no fields becomes a table. -/
def put (below : ConfigValue) (key : String) : ConfigValue → ConfigValue
  | table above =>
    let target := (Fields.get? below.fields (lowered key)).getD (table [])
    table (Fields.set below.fields (lowered key) (putAll target above))
  | value => table (Fields.set below.fields (lowered key) value)

/-- Lays fields over a value, one after the other. -/
def putAll (below : ConfigValue) : List (String × ConfigValue) → ConfigValue
  | [] => below
  | (key, value) :: rest => putAll (put below key value) rest

end

/-- The items of a list; anything else has none. -/
def items : ConfigValue → List ConfigValue
  | list items => items
  | _ => []

/-- The place that an index names in a list; a negative one counts from the end. -/
def itemPlace? (index : Int) (length : Nat) : Option Nat :=
  if 0 ≤ index then some index.toNat
  else if index.natAbs ≤ length then some (length - index.natAbs)
  else none

/-- Changes the item at a place. A list that is too short grows by items that are not given. -/
def changeItem (items : List ConfigValue) (place : Nat) (change : ConfigValue → ConfigValue) :
    List ConfigValue :=
  (items ++ List.replicate (place + 1 - items.length) absent).modify place change

/-- Lays a value over what the steps of a path lead to. What is on the way becomes a table or a
list as the steps need it. -/
def putAt (below : ConfigValue) : SettingPath → ConfigValue → ConfigValue
  | [], value => value
  | [.field key], value => below.put key value
  | .field key :: path, value =>
    let inner := (Fields.get? below.fields (lowered key)).getD absent
    table (Fields.set below.fields (lowered key) (inner.putAt path value))
  | .item index :: path, value =>
    match itemPlace? index below.items.length with
    | some place => list (changeItem below.items place (·.putAt path value))
    | none => below

/-! ## Reading values -/

def toBool? : ConfigValue → Option Bool
  | bool b => some b
  | integer n => some (n ≠ 0)
  | float d => some !d.isZero
  | text s =>
    if yesWords.contains (lowered s) then some true
    else if noWords.contains (lowered s) then some false
    else none
  | _ => none

/-- The greatest count. -/
def maxCount : Nat := twoPow 64 - 1

/-- A count. Fractions are rounded, and a number out of range to the nearest count; of whole
numbers only those in range are counts. -/
def toCount? : ConfigValue → Option Nat
  | bool b => some b.toNat
  | integer n => n.toNat?
  | float d => some (d.toNatWithin maxCount)
  | text s => ((text s).toBool?.map Bool.toNat).orElse fun _ => count? s.toList
  | _ => none

def toText? : ConfigValue → Option String
  | bool b => some (if b then "true" else "false")
  | integer n => some (toString n)
  | float d => some (d.format .plain)
  | text s => some s
  | _ => none

end ConfigValue

end SnippetRunner
