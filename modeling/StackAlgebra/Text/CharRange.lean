/-!
# Sets of characters as ranges of code points

The character classes of this library that reach beyond ASCII are tables of closed ranges of code
points. `CharRange.mem` looks a character up.
-/

namespace StackAlgebra.CharRange

/-- `c` lies in one of the closed ranges of the table. -/
def mem (table : List (Nat × Nat)) (c : Char) : Bool :=
  table.any fun (low, high) => low ≤ c.toNat && c.toNat ≤ high

end StackAlgebra.CharRange
