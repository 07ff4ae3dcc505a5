/-
  Lower case as far as ASCII letters come out of it.
-/
namespace SnippetRunner.Text

/-- The lower case of a character, as far as it has to do with ASCII: the Kelvin sign and the
dotted capital I are the only other characters whose lower case holds an ASCII letter. -/
def asciiLower (c : Char) : List Char :=
  if c = '\u212a' then ['k'] else if c = '\u0130' then ['i', '\u0307'] else [c.toLower]

def lowered (s : String) : String := String.ofList (s.toList.flatMap asciiLower)

end SnippetRunner.Text
