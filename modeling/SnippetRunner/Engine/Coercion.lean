import SnippetRunner.Engine.Numeral
import SnippetRunner.Engine.Store
import SnippetRunner.Snapshot

/-
  Data as text and as numbers, where a script needs one or the other.
-/
namespace SnippetRunner.Engine

/-- The text of a function; that of a built-in one does not tell what it does. -/
def Role.text (role : Role) (name : String) : String :=
  let body := if role = nothing then "" else "\n    [native code]\n"
  "function " ++ name ++ "() \x7b" ++ body ++ "\x7d"

namespace Store

/-- The text of a datum; arrays are followed `levels` deep. -/
def toTextWithin (s : Store) : Nat → Datum → Except Complaint String
  | _, .undefined => .ok "undefined"
  | _, .null => .ok "null"
  | _, .bool b => .ok (if b then "true" else "false")
  | _, .number d => .ok (numberText d)
  | _, .bigint n => .ok (Int.repr n)
  | _, .string text => .ok text
  | _, .symbol _ => .error (.notConvertible "symbol" "string")
  | 0, .object _ => .ok ""
  | levels + 1, .object place =>
    let property (key absent : String) : Except Complaint String := do
      match ← s.find place key with
      | some ⟨.undefined, _, _⟩ => return absent
      | some p => toTextWithin s levels p.value
      | none => return absent
    let item (index : Nat) : Except Complaint String := do
      match ← s.find place (Nat.repr index) with
      | some ⟨.undefined, _, _⟩ => return ""
      | some ⟨.null, _, _⟩ => return ""
      | some p => toTextWithin s levels p.value
      | none => return ""
    match (s[place]?).map Object.kind with
    | some (.array length) => do
      return ",".intercalate (← (List.range length).mapM item)
    | some .error => do
      let name ← property "name" ErrorKind.general.name
      return Snapshot.errorText name (← property "message" "")
    | some (.function (.unavailable name)) => .error (.unavailable name)
    | some (.function role) => .ok (role.text ((s.text? place "name").getD ""))
    | some (.promise _) => .ok "[object Promise]"
    | _ =>
      if s.isOrdinary place then .ok "[object Object]"
      else .error (.notConvertible "object" "string")

def toText (s : Store) (d : Datum) : Except Complaint String := s.toTextWithin s.length d

def toNumber (s : Store) : Datum → Except Complaint Double
  | .undefined => .ok .nan
  | .null => .ok (.zero false)
  | .bool b => .ok (.ofNat b.toNat)
  | .number d => .ok d
  | .bigint _ => .error (.notConvertible "bigint" "number")
  | .string text => .ok (numberOfText text)
  | .symbol _ => .error (.notConvertible "symbol" "number")
  | .object place => do return numberOfText (← s.toText (.object place))

end Store

end SnippetRunner.Engine
