/-!
The tree of the loops of a routine, given by the parent of each loop. Loops inside a loop have
larger numbers, and zero stands for the routine itself.
-/

namespace AddressFormulas.LoopTree

def climb (tree : List Nat) : Nat → Nat → Nat → Nat
  | 0, m, _ => m
  | n + 1, m, k =>
    if m = k then m
    else if k < m then climb tree n (tree.getD m 0) k
    else climb tree n m (tree.getD k 0)

/-- The innermost loop around both loops. No pair of loops comes up twice, so the number of pairs
bounds the climb. -/
def meet (tree : List Nat) (m k : Nat) : Nat := climb tree (tree.length * tree.length) m k

/-- The innermost loop around all three loops; a third loop of zero is left aside. Without such
loops in the tree the answer is the routine. -/
def lowestCommon (tree : List Nat) (m₁ m₂ m₃ : Nat) : Nat :=
  if tree.length ≤ m₁ ∨ tree.length ≤ m₂ ∨ tree.length ≤ m₃ then 0
  else
    let m := meet tree m₁ m₂
    if 0 < m ∧ 0 < m₃ then meet tree m m₃ else m

end AddressFormulas.LoopTree
