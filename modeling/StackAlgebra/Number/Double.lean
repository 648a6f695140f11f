/-!
# Rationals and doubles

A double (an IEEE 754 binary64 number) is its 64 bits. `Double.ofRat?` rounds a rational to the
nearest one, halves to the even neighbour, and fails on overflow; `Double.toRat?` gives the exact
value of a finite one. Both work on natural numbers alone; `Float` serves only to evaluate
transcendental functions.
-/

namespace StackAlgebra

attribute [local instance (high)] instPowNat

/-- A binary64 number, by its bits: the sign, eleven bits of exponent, fifty-two of fraction. -/
structure Double where
  bits : UInt64
deriving DecidableEq

namespace Double

/-- The number of bits below the exponent field. -/
def fractionBits : Nat := 52

/-- The number of bits of the exponent field. -/
def exponentBits : Nat := 11

/-- The place value of the lowest bit of the exponent field. -/
def exponentUnit : Nat := 2 ^ fractionBits

/-- The value of an exponent field without a zero bit, which marks what is no finite number. -/
def exponentLimit : Nat := 2 ^ exponentBits - 1

/-- The place value of the sign bit. -/
def signUnit : Nat := 2 ^ (fractionBits + exponentBits)

/-- The sign bit is set. -/
def isNegative (x : Double) : Bool :=
  signUnit ≤ x.bits.toNat

/-- The biased exponent. -/
def biased (x : Double) : Nat :=
  x.bits.toNat / exponentUnit % (exponentLimit + 1)

/-- The fraction field. -/
def fraction (x : Double) : Nat :=
  x.bits.toNat % exponentUnit

/-- Neither infinite nor not a number. -/
def isFinite (x : Double) : Bool :=
  x.biased ≠ exponentLimit

/-- The mantissa of the magnitude, in units of `2 ^ x.exponent`. -/
def mantissa (x : Double) : Nat :=
  if x.biased = 0 then x.fraction else x.fraction + exponentUnit

/-- The exponent of two that goes with the mantissa of the smallest doubles. -/
def lowestExponent : Int := -1074

/-- The exponent of two that goes with the mantissa. -/
def exponent (x : Double) : Int :=
  (max x.biased 1 : Nat) - 1 + lowestExponent

/-- The magnitude of a finite double. -/
def magnitude (x : Double) : Rat :=
  (x.mantissa : Rat) * (2 : Rat) ^ x.exponent

/-- The exact value of a finite double. -/
def toRat? (x : Double) : Option Rat :=
  if x.isFinite then some (if x.isNegative then -x.magnitude else x.magnitude) else none

/-- `n / d` rounded to an integer, a half to the even neighbour. -/
def roundQuotient (n d : Nat) : Nat :=
  let q := n / d
  let r := n % d
  if 2 * r < d ∨ (2 * r = d ∧ q % 2 = 0) then q else q + 1

/-- `n / d` divided by `2 ^ e`, rounded to an integer. -/
def scaledQuotient (n d : Nat) (e : Int) : Nat :=
  match e with
  | .ofNat k => roundQuotient n (d * 2 ^ k)
  | .negSucc k => roundQuotient (n * 2 ^ (k + 1)) d

/-- `2 ^ e ≤ n / d`. -/
def powLE (e : Int) (n d : Nat) : Bool :=
  match e with
  | .ofNat k => d * 2 ^ k ≤ n
  | .negSucc k => d ≤ n * 2 ^ (k + 1)

/-- The `e` with `2 ^ e ≤ n / d < 2 ^ (e + 1)`, for positive `n` and `d`. -/
def binaryExponent (n d : Nat) : Int :=
  let e : Int := (n.log2 : Int) - d.log2
  if powLE e n d then e else e - 1

/-- The bits of the double nearest to the positive `n / d`. The leading bit of a mantissa adds one
to the exponent field, and so does the carry of a mantissa that rounds up to a power of two. -/
def nearestBits (n d : Nat) : Nat :=
  let e := max (binaryExponent n d - fractionBits) lowestExponent
  (e - lowestExponent).toNat * exponentUnit + scaledQuotient n d e

/-- The double nearest to `q`; `none` if it is too large for a finite one. -/
def ofRat? (q : Rat) : Option Double :=
  let magnitude := if q.num = 0 then 0 else nearestBits q.num.natAbs q.den
  if exponentLimit * exponentUnit ≤ magnitude then none
  else some ⟨UInt64.ofNat (if q.num < 0 then signUnit + magnitude else magnitude)⟩

/-- The machine number with these bits. -/
def toFloat (x : Double) : Float :=
  Float.ofBits x.bits

/-- The bits of a machine number. -/
def ofFloat (x : Float) : Double :=
  ⟨x.toBits⟩

/-- The integer part of a finite double, toward zero. -/
def truncate? (x : Double) : Option Int :=
  x.toRat?.map fun q => if q < 0 then -(-q).floor else q.floor

/-- The integer nearest to `q`, a half to the even neighbour. -/
def nearestInt (q : Rat) : Int :=
  let n : Int := roundQuotient q.num.natAbs q.den
  if q < 0 then -n else n

end Double
end StackAlgebra
