import Mathlib

/-!
# Binary search

`sort.Search`: the loop of the standard library, for any predicate. On a predicate
that is false and then true it returns the first position where it is true.
-/

namespace CellHive.Go

/-- The loop of `sort.Search` on the interval `[i, j)`. -/
def searchFrom (f : Nat → Bool) (i j : Nat) : Nat :=
  if h : i < j then
    let mid := (i + j) / 2
    if f mid then searchFrom f i mid else searchFrom f (mid + 1) j
  else i
termination_by j - i
decreasing_by
  · omega
  · omega

def search (n : Nat) (f : Nat → Bool) : Nat := searchFrom f 0 n

end CellHive.Go
