import StackAlgebra.Canonical.Function

/-!
# The canonical form

`Expr.simplify` brings an expression to canonical form from the leaves up, so that equal values
built in different orders become one tree. Constants and variables are opaque. Where a part has no
value the whole has none: zero to the power zero, a division by zero, a result that is not real. The
same holds where terms or factors have no order.
-/

namespace StackAlgebra.Expr

mutual
/-- The canonical form of an expression. -/
def simplify : Expr → Except Error Expr
  | num q => .ok (num q)
  | const c => .ok (const c)
  | var x => .ok (var x)
  | sum ts => do Canonical.inOrder (Canonical.sum (← simplifyAll ts))
  | product fs => do Canonical.product (← simplifyAll fs)
  | power b e => do
    let b ← b.simplify
    Canonical.power b (← e.simplify)
  | unary f x => do Canonical.unary f (← x.simplify)
  | log x b => do
    let x ← x.simplify
    Canonical.log x (← b.simplify)
  | mod x d => do
    let x ← x.simplify
    Canonical.mod x (← d.simplify)
  | angle f x m => do Canonical.angle f (← x.simplify) m

/-- The canonical forms of expressions, from left to right. -/
def simplifyAll : List Expr → Except Error (List Expr)
  | [] => .ok []
  | e :: es => do
    let e ← e.simplify
    return e :: (← simplifyAll es)
end

end StackAlgebra.Expr
