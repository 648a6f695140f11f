import StackAlgebra.Canonical.SpecialAngle
import StackAlgebra.Number.Logarithm

/-!
# Canonical functions

Each function of the expression language applied to canonical operands. Negation, reciprocals, roots
and squares are products and powers; the others fold where the value is exactly known and stay as
they are elsewhere.
-/

namespace StackAlgebra.Canonical

open StackAlgebra.Expr (num)

/-! ## Absolute values -/

mutual
/-- The form of an expression shows that it is never negative. -/
def isNonnegative : Expr → Bool
  | .num q => 0 ≤ q
  | .const _ => true
  | .unary .abs _ => true
  | .power b e => isNonnegative b || e.isEven
  | .sum ts => areNonnegative ts
  | .product fs => areNonnegative fs
  | _ => false

/-- The forms of all expressions show that they are never negative. -/
def areNonnegative : List Expr → Bool
  | [] => true
  | e :: es => isNonnegative e && areNonnegative es
end

/-- The absolute value of an expression without coefficient. -/
def absRest (x : Expr) : Expr :=
  if isNonnegative x then x else .unary .abs x

/-- The absolute value. A coefficient is taken out. -/
def abs (x : Expr) : Except Error Expr :=
  match x with
  | .num q => .ok (num q.abs)
  | x =>
    if isNonnegative x then .ok x
    else
      match x.splitCoefficient with
      | (_, none) => .ok (.unary .abs x)
      | (c, some rest) =>
        if c = 1 then .ok (.unary .abs x) else product [num c.abs, absRest rest]

/-! ## Logarithms -/

/-- The base of natural logarithms. -/
def naturalBase : Expr :=
  .const .euler

/-- The logarithm of a positive number to a positive base other than one. -/
def numberLog (x b : Rat) : Except Error Expr :=
  match Logarithm.candidate? x b with
  | none => .error .machineDivision
  | some k =>
    match Logarithm.confirm? x b k with
    | some k => .ok (num k)
    | none => .ok (.log (num x) (num b))

/-- A base must be positive and other than one. -/
def checkBase (b : Expr) : Except Error Unit :=
  match b with
  | .num q =>
    if q ≤ 0 then .error (.logBase q) else if q = 1 then .error .logBaseOne else .ok ()
  | _ => .ok ()

/-- A number must be positive to have a logarithm. -/
def checkOperand (x : Expr) : Except Error Unit :=
  match x with
  | .num q => if q ≤ 0 then .error .logOfNonpositive else .ok ()
  | _ => .ok ()

/-- The exponent to which `x` is a power of `b` by its form. -/
def exponentOf? (x b : Expr) : Option Expr :=
  if x.isOne then some (num 0)
  else if x.same b then some (num 1)
  else
    match x with
    | .power b' e => if b'.same b then some e else none
    | _ => none

/-- The logarithm of `x` to the base `b`. -/
def log (x b : Expr) : Except Error Expr := do
  checkBase b
  checkOperand x
  match exponentOf? x b with
  | some e => return e
  | none =>
    match x, b with
    | .num p, .num q => numberLog p q
    | x, b => return .log x b

/-! ## Remainders -/

/-- `x - d · ⌊x / d⌋`, which has the sign of `d`. -/
def remainder (x d : Rat) : Rat :=
  x - d * (x / d).floor

/-- The remainder of `x` by `d`. -/
def mod (x d : Expr) : Except Error Expr :=
  if d.isZero then .error .divisionByZero
  else
    match x, d with
    | .num p, .num q => .ok (num (remainder p q))
    | x, d => if x.isZero || x.same d then .ok (num 0) else .ok (.mod x d)

/-! ## Angles -/

/-- The measure that a name stands for. -/
def measureOf (name : Option String) : Except Error AngleMeasure :=
  match name.bind AngleMeasure.find? with
  | some m => .ok m
  | none => .error .unknownName

/-- The angle `x` in turns. -/
def toTurns (x : Expr) (m : AngleMeasure) : Except Error Expr := do
  product [x, ← power (fullTurn m) (num (-1))]

/-- An angle of `t` turns. -/
def ofTurns (t : Rat) (m : AngleMeasure) : Except Error Expr :=
  product [num t, fullTurn m]

/-- The value of a function at a number of turns. -/
def specialValue? (f : AngleFunction) (t : Rat) : Except Error (Option SpecialAngle.Value) :=
  match f with
  | .sin => .ok (SpecialAngle.sine? t)
  | .cos => .ok (SpecialAngle.cosine? t)
  | .tan => SpecialAngle.tangent? t
  | _ => .ok none

/-- Sine, cosine or tangent of the angle `x`. -/
def ofAngle (f : AngleFunction) (x : Expr) (name : Option String) : Except Error Expr := do
  let m ← measureOf name
  match ← toTurns x m with
  | .num t =>
    match ← specialValue? f t with
    | some v => v.toExpr
    | none => return .angle f x name
  | _ => return .angle f x name

/-- Sine and cosine are at most one in magnitude. -/
def checkCosine (f : AngleFunction) (x : Expr) : Except Error Unit :=
  match f, x with
  | .atan, _ => .ok ()
  | _, .num q => if 1 < q.abs then .error .complexResult else .ok ()
  | _, _ => .ok ()

/-- The special angle in turns whose sine, cosine or tangent is `x`. -/
def specialAngle? (f : AngleFunction) (x : Expr) : Except Error (Option Rat) :=
  match f with
  | .atan => SpecialAngle.angle? x SpecialAngle.tangents
  | .acos => (Option.map (1 / 4 - ·)) <$> SpecialAngle.angle? x SpecialAngle.sines
  | _ => SpecialAngle.angle? x SpecialAngle.sines

/-- The angle whose sine, cosine or tangent is `x`. The measure matters only to a special angle. -/
def toAngle (f : AngleFunction) (x : Expr) (name : Option String) : Except Error Expr := do
  checkCosine f x
  match ← specialAngle? f x with
  | some t => ofTurns t (← measureOf name)
  | none => return .angle f x name

/-- A function to or from angles. -/
def angle (f : AngleFunction) (x : Expr) (name : Option String) : Except Error Expr :=
  if f.isInverse then toAngle f x name else ofAngle f x name

/-! ## Functions of one operand -/

/-- A function of one operand and nothing else. -/
def unary (f : UnaryFunction) (x : Expr) : Except Error Expr :=
  match f with
  | .neg => product [num (-1), x]
  | .recip => power x (num (-1))
  | .abs => abs x
  | .sqrt => power x (num (1 / 2))
  | .square => power x (num 2)
  | .ln => log x naturalBase

end StackAlgebra.Canonical
