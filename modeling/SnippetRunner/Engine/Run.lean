import SnippetRunner.Engine.Machine

/-
  Running programs. Expressions are evaluated from left to right; the statements of a program run
  up to one that returns or throws.
-/
namespace SnippetRunner.Engine

open Eval

mutual

def Expr.evaluate : Expr → Eval Datum
  | .literal d => return d
  | .array items => do allocate (.ofItems (← evaluateAll items))
  | .object fields => do
    let target ← insert (Species.object.make .plain [])
    defineAll target fields
    return .object target
  | .function name => allocate (.ofRole .nothing name)
  | .name name => readName name
  | .member target key place => do
    let target ← target.evaluate
    moveTo place
    readProperty target key
  | .element target index => do
    let target ← target.evaluate
    let index ← index.evaluate
    readProperty target (← check ((← get).store.toText index))
  | .call function place arguments => do
    let function ← function.evaluate
    moveTo place
    call function (← evaluateAll arguments)
  | .construct place function arguments => do
    moveTo place
    let function ← function.evaluate
    construct function (← evaluateAll arguments)
  | .assign target key place e => do
    let target ← target.evaluate
    moveTo place
    let d ← e.evaluate
    assignProperty target key d
    return d
  | .await e => do await (← e.evaluate)
  | .negate e => do negate (← e.evaluate)
  | .subtract a b => do
    let a ← a.evaluate
    subtract a (← b.evaluate)
  | .sequence first last => do
    let _ ← first.evaluate
    last.evaluate

def evaluateAll : List Expr → Eval (List Datum)
  | [] => return []
  | e :: es => do
    let d ← e.evaluate
    return d :: (← evaluateAll es)

/-- Gives a new object its fields. -/
def defineAll (target : Nat) : List (String × Expr) → Eval Unit
  | [] => return
  | (key, e) :: fields => do
    defineProperty target key (← e.evaluate)
    defineAll target fields

end

/-- Runs the statements up to one that returns; without it the value is undefined. -/
def Program.run : Program → Eval Datum
  | [] => return .undefined
  | .function _ :: rest => Program.run rest
  | .declare name place e :: rest => do
    moveTo place
    declare name (← e.evaluate)
    Program.run rest
  | .evaluate place e :: rest => do
    moveTo place
    let _ ← e.evaluate
    Program.run rest
  | .throw place e :: _ => do
    moveTo place
    throwDatum (← e.evaluate)
  | .return place e :: _ => do
    moveTo place
    e.evaluate

/-- Hands over the value of a program. A promise is waited for; a program that waits itself also
follows whatever else can be followed. -/
def handOver (waits : Bool) (d : Datum) : Eval Datum := do
  let settlement ← if waits then resolution d else pure ((← settlement? d).getD (.fulfilled d))
  match settlement with
  | .pending _ => await d
  | ended => conclude ended

/-- Runs a program to its end, with the promises in its value settled as far as they can be. -/
def Program.runToEnd (p : Program) (waits : Bool) : Eval Datum := do
  let d ← handOver waits (← p.run)
  if (← get).patient then settleAll
  return d

end SnippetRunner.Engine
