/-
  Offsets in the UTF-8 encoding of a text. Positions given to and taken from the outside count
  bytes; the library itself works on characters.
-/
namespace SnippetRunner.Text

/-- The offset of every character that satisfies `p`, the first character standing at `start`. -/
def offsetsOf {α : Type} (char : α → Char) (p : α → Bool) (start : Nat) : List α → List Nat
  | [] => []
  | a :: rest =>
    let after := offsetsOf char p (start + (char a).utf8Size) rest
    if p a then start :: after else after

/-- The bytes that encode `s`, each as the character of its number. -/
def bytesOf (s : List Char) : List Char :=
  s.flatMap fun c => (String.utf8EncodeChar c).map fun b => Char.ofNat b.toNat

end SnippetRunner.Text
