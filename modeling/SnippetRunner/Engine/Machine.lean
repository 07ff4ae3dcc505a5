import SnippetRunner.Engine.Assignment
import SnippetRunner.Engine.Program
import SnippetRunner.Engine.View
import SnippetRunner.Log
import SnippetRunner.Script.Transform

/-
  The machine that programs run on, and what its functions do. A run that does not go on has
  thrown a datum, or waits for a promise that nothing will settle.
-/
namespace SnippetRunner.Engine

structure Machine where
  store : Store
  /-- The names that the program declares; one that is not reached yet has no value. -/
  names : List (String × Option Datum)
  /-- The place in the script that errors and logs are attributed to. -/
  place : Position
  logs : List LogEntry
  /-- Whether there is time to wait for a promise. -/
  patient : Bool

inductive Ending where
  | thrown (d : Datum)
  | stuck

abbrev Eval := ExceptT Ending (StateM Machine)

/-- The functions of a program are there before it runs. -/
def Machine.initial (p : Program) (patient : Bool) : Machine where
  store := Builtin.store ++ p.functions.map (Object.ofRole .nothing)
  names := (p.functions.zipIdx Builtin.store.length).map (fun (name, place) =>
    (name, some (.object place))) ++ p.constants.map (·, none)
  place := ⟨1, 1⟩
  logs := []
  patient := patient

namespace Eval

/-- Puts an object into the store and tells its place. -/
def insert (o : Object) : Eval Nat := do
  let m ← get
  set { m with store := m.store ++ [o] }
  return m.store.length

def allocate (o : Object) : Eval Datum := do return .object (← insert o)

def moveTo (place : Position) : Eval Unit := modify ({ · with place := place })

def record (entry : LogEntry) : Eval Unit := modify fun m => { m with logs := m.logs ++ [entry] }

/-! ## Errors -/

/-- Where the functions fail that the engine does not offer. -/
def unavailablePlace : Position := ⟨21, 1⟩

/-- The stack text of an error that is made at `p`. -/
def stackText (p : Position) : String :=
  "    at <anonymous> (eval_script:" ++ Nat.repr (p.line + Script.wrapperLines) ++ ":"
    ++ Nat.repr p.column ++ ")\n"

def complaintPlace : Complaint → Eval Position
  | .unavailable _ => return unavailablePlace
  | _ => return (← get).place

def errorOf (c : Complaint) : Eval Datum := do
  allocate (.ofError c.kind (some c.message) (stackText (← complaintPlace c)))

def throwDatum {α : Type} (d : Datum) : Eval α := throw (Ending.thrown d)

def complain {α : Type} (c : Complaint) : Eval α := do throwDatum (← errorOf c)

def check {α : Type} : Except Complaint α → Eval α
  | .ok a => return a
  | .error c => complain c

/-! ## Names and properties -/

def readName (name : String) : Eval Datum := do
  match Fields.get? (← get).names name with
  | some (some d) => return d
  | some none => complain (.uninitialized name)
  | none =>
    match Fields.get? Builtin.names name with
    | some d => return d
    | none => complain (.undeclared name)

def declare (name : String) (d : Datum) : Eval Unit :=
  modify fun m => { m with names := Fields.set m.names name (some d) }

/-- The length of a text in UTF-16 units, and the characters that are one unit each. -/
def textProperty (text key : String) : Datum :=
  let units : List (Option Char) := text.toList.flatMap fun c =>
    if c.toNat < 65536 then [some c] else [none, none]
  if key = Object.lengthKey then .number (.ofNat units.length)
  else
    match (Object.itemIndex? key).bind (units[·]?) with
    | some c => .string (String.singleton (c.getD '\uFFFD'))
    | none => .undefined

def readProperty (target : Datum) (key : String) : Eval Datum := do
  match target with
  | .undefined => complain (.readOfNothing key "undefined")
  | .null => complain (.readOfNothing key "null")
  | .string text => return textProperty text key
  | .object place =>
    match ← check ((← get).store.find place key) with
    | some p => return p.value
    | none => return .undefined
  | _ => return .undefined

def assignProperty (target : Datum) (key : String) (d : Datum) : Eval Unit := do
  let store ← check ((← get).store.assign target key d)
  modify ({ · with store := store })

def defineProperty (place : Nat) (key : String) (d : Datum) : Eval Unit := do
  let store ← check ((← get).store.define place key d)
  modify ({ · with store := store })

/-! ## Promises -/

def role? (d : Datum) : Eval (Option Role) := do
  match ((← get).store.object? d).map Object.kind with
  | some (.function role) => return some role
  | _ => return none

def settlement? (d : Datum) : Eval (Option Settlement) := do
  return ((← get).store.object? d).bind Object.settlement?

def thenKey : String := "then"

/-- How a promise that is resolved with `d` begins: it follows what can be followed. -/
def resolution (d : Datum) : Eval Settlement := do
  match d with
  | .object place =>
    match (← get).store.find place thenKey with
    | .ok (some p) =>
      if (← role? p.value).isSome then return .pending d else return .fulfilled d
    | .ok none => return .fulfilled d
    | .error c => return .rejected (← errorOf c)
  | d => return .fulfilled d

/-- The promise itself, or one that is resolved with a datum of another kind. -/
def promiseOf (d : Datum) : Eval Datum := do
  match ← settlement? d with
  | some _ => return d
  | none => allocate (.ofSettlement (← resolution d))

/-- What following `d` comes to. A promise is followed to its end; a function that does nothing
never settles the promise that it is called for. -/
def follow (d : Datum) : Eval Settlement := do
  match d with
  | .object place =>
    match ← role? (((← get).store.get? place thenKey).getD .undefined) with
    | some .follow => return (← settlement? d).getD (.pending d)
    | some (.unavailable name) => return .rejected (← errorOf (.unavailable name))
    | _ => return .pending d
  | d => return .fulfilled d

def settleAt (place : Nat) : Eval Unit := do
  match ← settlement? (.object place) with
  | some (.pending d) =>
    let settlement ← follow d
    modify fun m => { m with
      store := m.store.modify place fun o => { o with kind := .promise settlement } }
  | _ => return

/-- Settles what can be settled of the promises, in the order in which they were made. -/
def settleAll : Eval Unit := do (List.range (← get).store.length).forM settleAt

def conclude : Settlement → Eval Datum
  | .fulfilled d => return d
  | .rejected d => throwDatum d
  | .pending _ => throw .stuck

/-- Waits for a datum. -/
def await (d : Datum) : Eval Datum := do
  let promise ← promiseOf d
  unless (← get).patient do throw .stuck
  settleAll
  conclude ((← settlement? promise).getD (.fulfilled d))

/-! ## Functions -/

/-- One argument is logged as itself, several are logged as an array. -/
def logMessage : List Snapshot → Snapshot
  | [single] => single
  | several => .array several.length several

def log (method : String) (arguments : List Datum) : Eval Unit := do
  let m ← get
  record (.ofKind (.ofMethod method) (logMessage (arguments.map m.store.snapshot))
    (some m.place.line))

/-- Logs the value of an expression statement with its line, and gives it back. -/
def capture (d line : Datum) : Eval Datum := do
  let lineNumber :=
    match line with
    | .number n => n.toInt?.bind Int.toNat?
    | _ => none
  record (.captured ((← get).store.snapshot d) lineNumber)
  return d

/-- The text of an argument that may be left out. -/
def textArgument : Datum → Eval (Option String)
  | .undefined => return none
  | d => do return some (← check ((← get).store.toText d))

def makeError (kind : ErrorKind) (message : Datum) : Eval Datum := do
  let text ← textArgument message
  allocate (.ofError kind text (stackText (← get).place))

def call (function : Datum) (arguments : List Datum) : Eval Datum := do
  let first := arguments.headD .undefined
  match ← role? function with
  | some (.construct (.error kind)) => makeError kind first
  | some (.construct .symbol) => return .symbol (← textArgument first)
  | some (.settle true) => promiseOf first
  | some (.settle false) => allocate (.ofSettlement (.rejected first))
  | some (.log method) => log method arguments; return .undefined
  | some .capture => capture first (arguments.getD 1 .undefined)
  | some .nothing => return .undefined
  | some (.unavailable name) => complain (.unavailable name)
  | some _ => complain .notObject
  | none => complain .notFunction

def construct (function : Datum) (arguments : List Datum) : Eval Datum := do
  match ← role? function with
  | some (.construct (.error kind)) => makeError kind (arguments.headD .undefined)
  | some (.unavailable name) => complain (.unavailable name)
  | _ => complain .notConstructor

/-! ## Operators -/

def negate : Datum → Eval Datum
  | .bigint n => return .bigint (-n)
  | d => do return .number (← check ((← get).store.toNumber d)).neg

def subtract : Datum → Datum → Eval Datum
  | .bigint a, .bigint b => return .bigint (a - b)
  | a, b => do
    let s := (← get).store
    return .number ((← check (s.toNumber a)).sub (← check (s.toNumber b)))

end Eval

end SnippetRunner.Engine
