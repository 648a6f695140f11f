import StackAlgebra.Canonical.Product
import StackAlgebra.Angle

/-!
# Special angles

Angles at which sine and tangent have values made of square roots. Angles are counted in turns. The
tables list the first quadrant; `SpecialAngle.sine?`, `cosine?` and `tangent?` bring any angle
there, remembering the sign. The values are in canonical form.
-/

namespace StackAlgebra.Canonical

open StackAlgebra.Expr (num)

/-- A full turn in an angle measure. -/
def fullTurn (m : AngleMeasure) : Expr :=
  if m.hasPi then .product [num m.turnFactor, .const .pi] else num m.turnFactor

namespace SpecialAngle

/-- The square root of a number that is no square. -/
def root (n : Rat) : Expr :=
  .power (num n) (num (1 / 2))

/-- The sines of the first quadrant, by angle in turns. -/
def sines : List (Rat × Expr) :=
  [(0, num 0),
   (1 / 12, num (1 / 2)),
   (1 / 8, .product [num (1 / 2), root 2]),
   (1 / 6, .product [num (1 / 2), root 3]),
   (1 / 4, num 1)]

/-- The tangents of the first quadrant, by angle in turns. -/
def tangents : List (Rat × Expr) :=
  [(0, num 0),
   (1 / 24, .sum [num 2, .product [num (-1), root 3]]),
   (1 / 12, .product [num (1 / 3), root 3]),
   (1 / 8, num 1),
   (1 / 6, root 3),
   (5 / 24, .sum [num 2, root 3])]

/-- A value up to its sign. -/
structure Value where
  negative : Bool
  magnitude : Expr

/-- The value as an expression. -/
def Value.toExpr (v : Value) : Except Error Expr :=
  if v.negative then product [num (-1), v.magnitude] else .ok v.magnitude

/-- The value that a table has at `t`. -/
def lookup? (table : List (Rat × Expr)) (negative : Bool) (t : Rat) : Option Value :=
  (table.lookup t).map fun e => ⟨negative, e⟩

/-- `t` reduced by whole multiples of the period. -/
def reduce (t period : Rat) : Rat :=
  t - period * (t / period).floor

/-- The angle of the first quadrant with the same tangent or sine as `t`, up to the sign, for `t` in
the first two quadrants. -/
def reflect (t : Rat) : Rat :=
  if 1 / 4 < t then 1 / 2 - t else t

/-- The sine of `t` turns, if `t` is a special angle. -/
def sine? (t : Rat) : Option Value :=
  let t := reduce t 1
  if 1 / 2 ≤ t then lookup? sines true (reflect (t - 1 / 2)) else lookup? sines false (reflect t)

/-- The cosine of `t` turns, if `t` is a special angle. -/
def cosine? (t : Rat) : Option Value :=
  sine? (t + 1 / 4)

/-- The tangent of `t` turns, if `t` is a special angle. It has poles at odd quarter turns. -/
def tangent? (t : Rat) : Except Error (Option Value) :=
  let t := reduce t (1 / 2)
  if t = 1 / 4 then .error .tangentPole
  else .ok (lookup? tangents (1 / 4 < t) (reflect t))

/-- The special angle in turns at which the table has the value `x`, or its negative if it has the
value `-x` there. -/
def angle? (x : Expr) : List (Rat × Expr) → Except Error (Option Rat)
  | [] => .ok none
  | (t, v) :: table =>
    if v.same x then .ok (some t)
    else do
      if (← product [num (-1), v]).same x then return some (-t)
      angle? x table

end SpecialAngle
end StackAlgebra.Canonical
