import SnippetRunner.Text.Split
import SnippetRunner.Text.Word

/-
  The words that begin a declaration or a control statement.
-/
namespace SnippetRunner.Script

open SnippetRunner.Text

/-- A statement that begins with one of these words is no expression. -/
def statementKeywords : List (List Char) :=
  ["const", "let", "var", "function", "class", "if", "for", "while", "do", "switch", "try",
    "throw", "import", "export", "return", "break", "continue", "debugger"].map String.toList

/-- Whether an identifier that ends before `rest` ends there. -/
def identifierEnds (rest : List Char) : Bool :=
  !rest.head?.any fun c => isAlphanumeric c || c = '_' || c = '$'

/-- Whether `text` opens with `word`, and the word ends there. -/
def opensWithWord (text word : List Char) : Bool := (dropStart? word text).any identifierEnds

/-- Whether `text` opens with a declaration or control keyword. -/
def opensWithKeyword (text : List Char) : Bool := statementKeywords.any (opensWithWord text)

end SnippetRunner.Script
