import SnippetRunner.Source.Occurrence
import SnippetRunner.Text.Blank

/-
  Whether a script needs module loading: it declares an import or export at the head of a
  statement, or calls a loading function.
-/
namespace SnippetRunner.Script

open SnippetRunner.Text SnippetRunner.Source

/-- Only spaces and tabs lie between the place and the line start or semicolon before it. -/
def isDeclarationHead (before : List Char) : Bool :=
  match before.dropWhile fun c => c = ' ' || c = '\t' with
  | [] => true
  | c :: _ => c = '\n' || c = ';'

def isModuleDeclaration (before text : List Char) : Bool :=
  isDeclarationHead before
    && ((afterWord? "import".toList before text).isSome
      || (afterWord? "export".toList before text).isSome)

/-- A call of `require` or `import` that is no method call. -/
def isLoadCall (before text : List Char) : Bool :=
  wordBegins before && !isMember before
    && (["require", "import"].map String.toList).any fun name =>
      (dropStart? name text).any fun rest => (trimStart rest).head? = some '('

/-- Whether `source` needs module loading. -/
def usesModules (source : List Char) : Bool :=
  occursInCode isModuleDeclaration source || occursInCode isLoadCall source

end SnippetRunner.Script
