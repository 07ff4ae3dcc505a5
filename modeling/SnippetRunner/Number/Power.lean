/-
  Powers of the bases of numbers.
-/
namespace SnippetRunner

def twoPow (n : Nat) : Nat := Nat.pow 2 n

def tenPow (n : Nat) : Nat := Nat.pow 10 n

end SnippetRunner
