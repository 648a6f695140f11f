import StackAlgebra.Number.Double
import StackAlgebra.Radix.Digits

/-!
# The shortest decimal of a double

`Double.shortest` finds the fewest digits that read back as a given finite positive double, and of
these the nearest: for one digit, two digits and so on it tries the two neighbours of the double on
that decimal grid. `Double.text` writes them: with a point between `10 ^ -4` and `10 ^ 16`, with an
exponent of at least two digits outside.
-/

namespace StackAlgebra.Double

attribute [local instance (high)] instPowNat

/-- Half the distance to the next double above a magnitude. -/
def halfGap (x : Double) : Rat :=
  (2 : Rat) ^ (x.exponent - 1)

/-- Half the distance to the next double below, which is shorter at a power of two. -/
def halfGapBelow (x : Double) : Rat :=
  if x.fraction = 0 ∧ 1 < x.biased then x.halfGap / 2 else x.halfGap

/-- The positive rational `q` reads back as `x`. -/
def readsBack (x : Double) (q : Rat) : Bool :=
  let low := x.magnitude - x.halfGapBelow
  let high := x.magnitude + x.halfGap
  if x.mantissa % 2 = 0 then low ≤ q && q ≤ high else low < q && q < high

/-- The neighbour of `x` on the grid of step `10 ^ p` that reads back, the nearer if both do. -/
def onGrid? (x : Double) (p : Int) : Option Nat :=
  let step := (10 : Rat) ^ p
  let below := (x.magnitude / step).floor.toNat
  let above := below + 1
  let hitBelow := x.readsBack (below * step)
  let hitAbove := x.readsBack (above * step)
  if hitBelow && hitAbove then
    let toBelow := x.magnitude - below * step
    let toAbove := above * step - x.magnitude
    some (if toBelow < toAbove ∨ (toBelow = toAbove ∧ below % 2 = 0) then below else above)
  else if hitBelow then some below
  else if hitAbove then some above
  else none

/-- The first grid with a neighbour that reads back, among those of `count`, `count + 1`, … digits;
with it the exponent of its step. -/
def firstGrid (x : Double) (top : Int) : Nat → Nat → Nat × Int
  | 0, _ => (0, 0)
  | fuel + 1, count =>
    let p := top - count + 1
    match x.onGrid? p with
    | some n => (n, p)
    | none => x.firstGrid top fuel (count + 1)

/-- Digits and the power of ten of the last one. Seventeen digits always read back. -/
def shortest (x : Double) : Nat × Int :=
  x.firstGrid (Radix.decimal.magnitude x.magnitude) 17 1

/-- The digits of `n` without the zeros at their end. -/
def significant (n : Nat) : List Nat :=
  ((Radix.decimal.digits n).reverse.dropWhile (· = 0)).reverse

/-- A positive magnitude in decimal. -/
def magnitudeText (x : Double) : List Char :=
  let (n, p) := x.shortest
  let all := Radix.decimal.digits n
  let ds := (significant n).map Digit.ofValue
  -- The power of ten of the first digit.
  let lead : Int := p + all.length - 1
  if -4 ≤ lead ∧ lead < 0 then
    '0' :: '.' :: List.replicate (-lead - 1).toNat '0' ++ ds
  else if 0 ≤ lead ∧ lead < 16 then
    let whole := lead.toNat + 1
    let after := ds.drop whole
    ds.take whole ++ List.replicate (whole - ds.length) '0' ++ '.' ::
      (if after = [] then ['0'] else after)
  else
    let after := ds.drop 1
    let size := (Radix.decimal.digits lead.natAbs).map Digit.ofValue
    ds.take 1 ++ (if after = [] then [] else '.' :: after) ++ 'e' ::
      (if lead < 0 then '-' else '+') :: List.replicate (2 - size.length) '0' ++ size

/-- The double in decimal, in the fewest digits that read back. -/
def text (x : Double) : String :=
  let sign := if x.isNegative then "-" else ""
  if x.isFinite then
    sign ++ if x.magnitude = 0 then "0.0" else String.ofList x.magnitudeText
  else if x.fraction = 0 then sign ++ "inf" else "nan"

end StackAlgebra.Double
