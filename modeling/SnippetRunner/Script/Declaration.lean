import SnippetRunner.Text.Blank
import SnippetRunner.Text.Split

/-
  Module declarations, and the synchronous code that stands for each of them: imports load with
  `require`, exports assign to `module.exports`.
-/
namespace SnippetRunner.Script

open SnippetRunner.Text

/-- An entry of a list of names: what the module calls it, and what it is called here. -/
structure Specifier where
  source : List Char
  localName : List Char
  deriving DecidableEq, Repr

namespace Specifier

/-- Reads `name` or `name as other`. -/
def ofWords : List (List Char) → Specifier
  | source :: as :: localName :: _ => ⟨source, if as = ['a', 's'] then localName else source⟩
  | source :: _ => ⟨source, source⟩
  | [] => ⟨[], []⟩

/-- The entries of a list of names separated by commas; empty ones do not count. -/
def ofList (list : List Char) : List Specifier :=
  (((splitBetween (· = ',') list).map trim).filter (!·.isEmpty)).map (ofWords ∘ splitWords)

/-- The entry as a part of a destructuring pattern. -/
def pattern (s : Specifier) : List Char :=
  if s.source = s.localName then s.source else s.source ++ ": ".toList ++ s.localName

end Specifier

/-- A destructuring pattern for the named bindings of a module. -/
def destructuring (named : List Specifier) : List Char :=
  "\x7b ".toList ++ ((named.map Specifier.pattern).intersperse ", ".toList).flatten
    ++ " \x7d".toList

inductive Declaration where
  /-- `import name, * as whole from 'module'` -/
  | importDefaultAndWhole (name whole module : List Char)
  /-- `import name, { a, b as c } from 'module'` -/
  | importDefaultAndNamed (name : List Char) (named : List Specifier) (module : List Char)
  /-- `import * as whole from 'module'` -/
  | importWhole (whole module : List Char)
  /-- `import { a, b as c } from 'module'` -/
  | importNamed (named : List Specifier) (module : List Char)
  /-- `import name from 'module'` -/
  | importDefault (name module : List Char)
  /-- `import 'module'` -/
  | importBare (module : List Char)
  /-- `export default`, before an expression -/
  | exportDefault
  /-- `export`, before the keyword of a declaration -/
  | exportBinding (keyword : List Char)
  /-- `export { a, b as c } from 'module'` -/
  | exportNamedFrom (named : List Specifier) (module : List Char)
  /-- `export * from 'module'` -/
  | exportAllFrom (module : List Char)
  /-- `export { a, b as c }` -/
  | exportNames
  deriving DecidableEq, Repr

def loadCall (module : List Char) : List Char :=
  "require('".toList ++ module ++ "')".toList

/-- The default export of `module`, or the module itself if it has none. -/
def defaultOf (module : List Char) : List Char :=
  "((m) => (m && m.default !== undefined ? m.default : m))(".toList ++ module ++ ")".toList

def constant (pattern value : List Char) : List Char :=
  "const ".toList ++ pattern ++ " = ".toList ++ value ++ ";".toList

/-- Assigns what the module calls `s.source` to the export `s.localName`. -/
def exportAssignment (module : List Char) (s : Specifier) : List Char :=
  "module.exports.".toList ++ s.localName ++ " = ".toList ++ loadCall module ++ ".".toList
    ++ s.source ++ ";".toList

/-- The binding that keeps a module between its default and its named imports. -/
def moduleHolder (name : List Char) : List Char := "__module_".toList ++ name

/-- The code that stands for a declaration. -/
def Declaration.render : Declaration → List Char
  | .importDefaultAndWhole name whole module =>
    constant whole (loadCall module) ++ " ".toList ++ constant name (defaultOf whole)
  | .importDefaultAndNamed name named module =>
    constant (moduleHolder name) (loadCall module) ++ " ".toList
      ++ constant (destructuring named) (moduleHolder name) ++ " ".toList
      ++ constant name (defaultOf (moduleHolder name))
  | .importWhole whole module => constant whole (loadCall module)
  | .importNamed named module => constant (destructuring named) (loadCall module)
  | .importDefault name module => constant name (defaultOf (loadCall module))
  | .importBare module => loadCall module ++ ";".toList
  | .exportDefault => []
  | .exportBinding keyword => keyword
  | .exportNamedFrom named module =>
    ((named.map (exportAssignment module)).intersperse " ".toList).flatten
  | .exportAllFrom module =>
    "Object.assign(module.exports, ".toList ++ loadCall module ++ ");".toList
  | .exportNames => []

end SnippetRunner.Script
