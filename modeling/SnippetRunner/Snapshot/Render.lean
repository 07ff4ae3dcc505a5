import SnippetRunner.Snapshot

/-
  Snapshots as text to read. Strings are quoted inside other values and bare on their own.
-/
namespace SnippetRunner.Snapshot

/-- Whole numbers below `10^21` are written with every digit of their exact value. -/
def numberText (d : Double) : String :=
  match d with
  | .nan => "NaN"
  | .infinite negative => if negative then "-Infinity" else "Infinity"
  | .finite negative .. =>
    match d.toInt? with
    | some n =>
      if d.magnitudeLt (Double.ofDecimal false 1 21) then
        (if negative then "-" else "") ++ Nat.repr n.natAbs
      else d.format .plain
    | none => d.format .plain

def quotedText (s : String) : String :=
  "'" ++ String.ofList (s.toList.flatMap fun c => if c = '\'' then ['\\', c] else [c]) ++ "'"

mutual

/-- The text of a snapshot inside another one. -/
def nested : Snapshot → String
  | null => "null"
  | bool b => if b then "true" else "false"
  | number d => numberText d
  | decimal text => text
  | string s => quotedText s
  | undefined => "undefined"
  | function name => "[Function: " ++ name ++ "]"
  | symbol description => "Symbol(" ++ description ++ ")"
  | circular name => "[Circular *" ++ name ++ "]"
  | maxDepth => "[MaxDepth]"
  | truncated count => "... " ++ Nat.repr count ++ " more items"
  | error message => message
  | promise state => "Promise \x7b <" ++ state.name ++ "> \x7d"
  | array _ [] => "[]"
  | array _ items => "[ " ++ ", ".intercalate (nestedItems items) ++ " ]"
  | object name props =>
    let body :=
      match nestedProps props with
      | [] => "\x7b\x7d"
      | texts => "\x7b " ++ ", ".intercalate texts ++ " \x7d"
    if name = defaultObjectName then body else name ++ " " ++ body

def nestedItems : List Snapshot → List String
  | [] => []
  | item :: rest => nested item :: nestedItems rest

def nestedProps : List (String × Snapshot) → List String
  | [] => []
  | (key, value) :: rest => (key ++ ": " ++ nested value) :: nestedProps rest

end

/-- The text of a snapshot on its own. -/
def render : Snapshot → String
  | string s => s
  | other => nested other

end SnippetRunner.Snapshot
