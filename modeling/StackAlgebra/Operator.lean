import StackAlgebra.Canonical.Simplify

/-!
# Operators

The operators of the calculator, by symbol and by name. An operator builds its expression from
canonical operands and answers the canonical form. Angle operators also take the angle measure.
-/

namespace StackAlgebra

/-- What a user can apply to expressions. -/
inductive Operator where
  | add | sub | mul | div | pow | mod | log
  | unary (f : UnaryFunction)
  | angle (f : AngleFunction)
deriving DecidableEq

namespace Operator

/-- The operators spelled as single symbols. -/
def symbols : List (String × Operator) :=
  [("+", add), ("-", sub), ("*", mul), ("·", mul), ("/", div), ("^", pow), ("%", mod),
   ("~", unary .neg), ("`", unary .recip), ("|", unary .abs)]

/-- The operators spelled as words. -/
def words : List (String × Operator) :=
  [("add", add), ("sub", sub), ("mul", mul), ("div", div), ("pow", pow), ("mod", mod), ("log", log),
   ("neg", unary .neg), ("recip", unary .recip), ("inv", unary .recip), ("abs", unary .abs),
   ("sqrt", unary .sqrt), ("sq", unary .square), ("square", unary .square), ("ln", unary .ln),
   ("sin", angle .sin), ("cos", angle .cos), ("tan", angle .tan), ("asin", angle .asin),
   ("acos", angle .acos), ("atan", angle .atan)]

/-- The operator with this symbol or name. -/
def find? (name : String) : Option Operator :=
  (symbols ++ words).lookup name

/-- The number of operands. -/
def arity : Operator → Nat
  | add | sub | mul | div | pow | mod | log => 2
  | unary _ | angle _ => 1

/-- The operator needs to know the angle measure. -/
def takesMeasure : Operator → Bool
  | angle _ => true
  | _ => false

/-- The operator applied to operands, the deepest of the stack first. The base of a logarithm comes
before its operand. -/
def evaluate (op : Operator) (measure : String) (operands : List Expr) : Except Error Expr :=
  match op, operands with
  | add, [x, y] => (Expr.sum [x, y]).simplify
  | sub, [x, y] => (Expr.sum [x, .product [.num (-1), y]]).simplify
  | mul, [x, y] => (Expr.product [x, y]).simplify
  | div, [x, y] =>
    if y.isZero then .error .divisionByZero
    else (Expr.product [x, .power y (.num (-1))]).simplify
  | pow, [x, y] => (Expr.power x y).simplify
  | mod, [x, y] => (Expr.mod x y).simplify
  | log, [b, x] => (Expr.log x b).simplify
  | unary f, [x] => (Expr.unary f x).simplify
  | angle f, [x] => (Expr.angle f x (some measure)).simplify
  | _, _ => .error .wrongArguments

/-- The operator called by name from outside, with an angle measure only where it takes one. -/
def call (name : String) (measure : Option String) (operands : List Expr) : Except Error Expr :=
  match find? name with
  | none => .error .unknownName
  | some op =>
    if measure.isSome && !op.takesMeasure then .error .wrongArguments
    else op.evaluate (measure.getD AngleMeasure.rad.name) operands

end Operator
end StackAlgebra
