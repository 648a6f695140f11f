import StackAlgebra.Error
import StackAlgebra.Number.Root

/-!
# Division and roots of given numbers

Division and roots as they are asked for from outside, where the divisor may be zero and the
radicand negative.
-/

namespace StackAlgebra

/-- The quotient of rationals. -/
def divide (x y : Rat) : Except Error Rat :=
  if y = 0 then .error .divisionByZero else .ok (x / y)

namespace Root

/-- The floor of the `k`-th root of a number that must not be negative. Zero and one are their own
roots of any degree. Other numbers have no root of a degree below one; how that is told apart
depends on whether the degree exceeds the number of bits. -/
def checkedFloor (n k : Int) : Except Error Nat :=
  if n < 0 then .error .meaninglessValue
  else if n < 2 then .ok n.toNat
  else if k = 0 then .error .machineDivision
  else if k < 0 then
    .error (if k.natAbs ≤ bitLength n.natAbs then .meaninglessValue else .machineDivision)
  else .ok (floor k.toNat n.toNat)

/-- The exact `k`-th root of a rational that must not be negative, if that is rational. -/
def checkedExact (q : Rat) (k : Int) : Except Error (Option Rat) := do
  let n ← checkedFloor q.num k
  let d ← checkedFloor q.den k
  if q = 0 ∧ k < 0 then throw .machineDivision
  return if isRoot k.toNat n q.num.natAbs && isRoot k.toNat d q.den then
    some ((n : Rat) / (d : Rat)) else none

end Root
end StackAlgebra
