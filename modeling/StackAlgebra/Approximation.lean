import StackAlgebra.Canonical.Simplify

/-!
# Numeric approximation

`Expr.approximate` folds every part of an expression that holds no variable into one rational:
constants become their tabulated values, exact arithmetic does what it can, and what remains of
powers, logarithms and angle functions of numbers is evaluated as machine numbers, whose value is
then taken exactly. A part whose machine value is not finite stays symbolic.
-/

namespace StackAlgebra

namespace Approximation

/-- The exact value of a finite machine number. -/
def ofFloat? (x : Float) : Option Rat :=
  (Double.ofFloat x).toRat?

/-- The machine number nearest to a rational, if that is not too large. -/
def toFloat? (q : Rat) : Option Float :=
  (Double.ofRat? q).map Double.toFloat

/-- A power of machine numbers. A negative base has a real power if the denominator of the exponent
is odd. -/
def power? (b e : Rat) : Option Rat := do
  let x ← toFloat? e
  if b < 0 ∧ e.den % 2 = 1 then
    let magnitude := (← toFloat? (-b)).pow x
    ofFloat? (if e.num % 2 = 0 then magnitude else -magnitude)
  else ofFloat? ((← toFloat? b).pow x)

/-- A logarithm of machine numbers. -/
def log? (x b : Rat) : Option Rat :=
  ofFloat? (Logarithm.ofRat x / Logarithm.ofRat b)

/-- A full turn in radians. -/
def tau : Float := 6.283185307179586

/-- Half a turn in radians. -/
def pi : Float := 3.141592653589793

/-- A full turn in an angle measure. -/
def fullTurn? (m : AngleMeasure) : Option Float :=
  (toFloat? m.turnFactor).map (· * if m.hasPi then pi else 1)

/-- Sine, cosine or tangent of the angle `x`. -/
def ofAngle? (f : AngleFunction) (x : Rat) (m : AngleMeasure) : Option Rat := do
  let radians := (← toFloat? x) / (← fullTurn? m) * tau
  ofFloat? (match f with
    | .sin => radians.sin
    | .cos => radians.cos
    | _ => radians.tan)

/-- The angle whose sine, cosine or tangent is `x`. -/
def toAngle? (f : AngleFunction) (x : Float) (m : AngleMeasure) : Option Rat := do
  let radians := match f with
    | .asin => x.asin
    | .acos => x.acos
    | _ => x.atan
  ofFloat? (radians / tau * (← fullTurn? m))

/-- An angle function of machine numbers. -/
def angle? (f : AngleFunction) (x : Rat) (name : Option String) : Except Error (Option Rat) :=
  if f.isInverse then
    match toFloat? x with
    | none => .ok none
    | some x => do return toAngle? f x (← Canonical.measureOf name)
  else do return ofAngle? f x (← Canonical.measureOf name)

/-- A machine value if there is one, else the expression itself. -/
def orExact (value : Option Rat) (exact : Expr) : Expr :=
  match value with
  | some q => .num q
  | none => exact

/-- The power of approximated expressions. Fractional powers of numbers are machine numbers even
where an exact value exists. -/
def power (b e : Expr) : Except Error Expr :=
  match b, e with
  | .num p, .num q =>
    if q.den = 1 then (Expr.power b e).simplify else .ok (orExact (power? p q) (.power b e))
  | _, _ => (Expr.power b e).simplify

/-- The logarithm of approximated expressions. -/
def log (x b : Expr) : Except Error Expr := do
  let exact ← (Expr.log x b).simplify
  match exact, x, b with
  | .num _, _, _ => return exact
  | _, .num p, .num q => return orExact (log? p q) exact
  | _, _, _ => return exact

/-- An angle function of an approximated expression. -/
def angle (f : AngleFunction) (x : Expr) (name : Option String) : Except Error Expr := do
  let exact ← (Expr.angle f x name).simplify
  match exact, x with
  | .num _, _ => return exact
  | _, .num p => return orExact (← angle? f p name) exact
  | _, _ => return exact

end Approximation

namespace Expr

mutual
/-- The expression with every part that holds no variable folded into a number, where it can be. -/
def approximate : Expr → Except Error Expr
  | num q => .ok (num q)
  | const c => .ok (num c.value)
  | var x => .ok (var x)
  | sum ts => do (sum (← approximateAll ts)).simplify
  | product fs => do (product (← approximateAll fs)).simplify
  | power b e => do
    let b ← b.approximate
    Approximation.power b (← e.approximate)
  | unary f x => do (unary f (← x.approximate)).simplify
  | log x b => do
    let x ← x.approximate
    Approximation.log x (← b.approximate)
  | mod x d => do
    let x ← x.approximate
    (mod x (← d.approximate)).simplify
  | angle f x m => do Approximation.angle f (← x.approximate) m

/-- The approximations of expressions, from left to right. -/
def approximateAll : List Expr → Except Error (List Expr)
  | [] => .ok []
  | e :: es => do
    let e ← e.approximate
    return e :: (← approximateAll es)
end

end Expr
end StackAlgebra
