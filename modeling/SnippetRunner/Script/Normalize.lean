import SnippetRunner.Source.Region
import SnippetRunner.Script.DeclarationForm

/-
  Module declarations become synchronous code. The forms are replaced one after the other, each
  over the whole text, from left to right. A declaration is replaced if it begins in code; as
  many line ends follow the replacement as the declaration contained.
-/
namespace SnippetRunner.Script

open SnippetRunner.Text SnippetRunner.Source

/-- How many characters of the last declaration found are still ahead, and whether they stay. -/
inductive Ahead where
  | nothing
  | kept (count : Nat)
  | replaced (count : Nat)
  deriving DecidableEq, Repr

/-- The code for the declaration at the head of `text` that ends before `rest`. -/
def replacement (declaration : Declaration) (text rest : List Char) : List Char :=
  declaration.render
    ++ List.replicate (newlines (text.take (text.length - rest.length))) '\n'

/-- Replaces the declarations of one form. `afterWord` tells that a word character stands before
the text, so that no word begins at its head. -/
def replaceFrom (form : Form) (afterWord : Bool) (ahead : Ahead) :
    List Char → List Region → List Char
  | c :: text, region :: regions =>
    match ahead with
    | .kept (count + 1) => c :: replaceFrom form (isWord c) (.kept count) text regions
    | .replaced (count + 1) => replaceFrom form (isWord c) (.replaced count) text regions
    | _ =>
      match if afterWord then none else form.read? (c :: text) with
      | none => c :: replaceFrom form (isWord c) .nothing text regions
      | some (declaration, rest) =>
        let count := text.length - rest.length
        if region = .code then
          replacement declaration (c :: text) rest
            ++ replaceFrom form (isWord c) (.replaced count) text regions
        else c :: replaceFrom form (isWord c) (.kept count) text regions
  | text, _ => text

/-- Replaces the declarations of one form. -/
def replaceForm (text : List Char) (form : Form) : List Char :=
  replaceFrom form false .nothing text (regions text)

/-- Replaces every module declaration. -/
def normalize (source : List Char) : List Char := Form.all.foldl replaceForm source

end SnippetRunner.Script
