import SnippetRunner.Engine.Object
import SnippetRunner.Error.Position

/-
  Programs of the isolated engine. Statements, keys, calls and constructions keep their places,
  because errors and logs are attributed to them; names and literals have none of their own.
-/
namespace SnippetRunner.Engine

inductive Expr where
  | literal (d : Datum)
  | array (items : List Expr)
  | object (fields : List (String × Expr))
  | function (name : String)
  | name (name : String)
  | member (target : Expr) (key : String) (place : Position)
  | element (target index : Expr)
  /-- A call; its place is that of what follows the opening parenthesis. -/
  | call (function : Expr) (place : Position) (arguments : List Expr)
  /-- A new object; its place is that of what follows `new`. -/
  | construct (place : Position) (function : Expr) (arguments : List Expr)
  | assign (target : Expr) (key : String) (place : Position) (e : Expr)
  | await (e : Expr)
  | negate (e : Expr)
  | subtract (a b : Expr)
  | sequence (first last : Expr)
  deriving Repr, Inhabited

/-- The place of a statement is that of its expression. -/
inductive Statement where
  | function (name : String)
  | declare (name : String) (place : Position) (e : Expr)
  | evaluate (place : Position) (e : Expr)
  | throw (place : Position) (e : Expr)
  | return (place : Position) (e : Expr)
  deriving Repr

abbrev Program := List Statement

namespace Program

/-- The names of the functions that a program declares. -/
def functions (p : Program) : List String :=
  p.filterMap fun
    | .function name => some name
    | _ => none

/-- The names of the values that a program declares. -/
def constants (p : Program) : List String :=
  p.filterMap fun
    | .declare name _ _ => some name
    | _ => none

end Program

end SnippetRunner.Engine
