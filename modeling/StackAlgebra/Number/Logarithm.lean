import StackAlgebra.Number.Double
import StackAlgebra.Number.Root

/-!
# Logarithms of rationals

The natural logarithm of a positive rational as a machine number is that of its numerator less that
of its denominator, so that large ones do not overflow (`Logarithm.ofRat`). A quotient of two such
logarithms only proposes a whole exponent; `Logarithm.confirm?` decides by exact arithmetic whether
it is one.
-/

namespace StackAlgebra.Logarithm

attribute [local instance (high)] instPowNat

/-- `n` as a fraction between a half and one, rounded to the binary digits of a double, and a power
of two. -/
def normalize (n : Nat) : Rat × Nat :=
  let size := Root.bitLength n
  let digits := Double.fractionBits + 1
  let m := Double.roundQuotient n (2 ^ (size - digits))
  let full := 2 ^ digits
  if m = full then (1 / 2, size + 1) else ((m : Rat) / (full : Rat), size)

/-- The natural logarithm of a positive whole number. -/
def ofNat (n : Nat) : Float :=
  match Double.ofRat? n with
  | some x => x.toFloat.log
  | none =>
    let (m, size) := normalize n
    match Double.ofRat? m with
    | some x => x.toFloat.log + Float.log 2 * size.toFloat
    | none => Float.log 2 * size.toFloat

/-- The natural logarithm of a positive rational. -/
def ofRat (q : Rat) : Float :=
  ofNat q.num.natAbs - ofNat q.den

/-- The size of a rational: the binary digits of its numerator or denominator, whichever has
more. -/
def bits (q : Rat) : Nat :=
  max (Root.bitLength q.num.natAbs) (Root.bitLength q.den)

/-- `k`, if `b ^ k = x`. A power of `b` has at least `k` times one digit less than `b`, so a
candidate that is too large is given up before any power is computed. -/
def confirm? (x b : Rat) (k : Int) : Option Int :=
  if bits x < k.natAbs * (bits b - 1) then none
  else if b ^ k = x then some k
  else none

/-- The whole number nearest to `ln x / ln b`; `none` if `b` is so close to one that its logarithm
is zero as a machine number. -/
def candidate? (x b : Rat) : Option Int :=
  let lb := ofRat b
  if lb == 0 then none
  else some (Double.nearestInt ((Double.ofFloat (ofRat x / lb)).toRat?.getD 0))

end StackAlgebra.Logarithm
