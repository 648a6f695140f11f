import StackAlgebra.Radix.Basic

/-!
# Digit sequences

The digits of a whole number (`Radix.digits`), the number a digit sequence denotes
(`Radix.ofDigits`), the digits of a proper fraction (`Radix.fractionDigits`), and two facts about a
rational that decide how it is written: how many fractional digits it takes to write it in full
(`Radix.places?`) and which power of the radix it lies at or above (`Radix.magnitude`).
-/

namespace StackAlgebra.Radix

/-- The digits of `n`, most significant first, in front of `low`. -/
def digitsOnto (R : Radix) (n : Nat) (low : List Nat) : List Nat :=
  if n < R.val then n :: low else R.digitsOnto (n / R.val) (n % R.val :: low)
termination_by n
decreasing_by
  have := R.two_le
  exact Nat.div_lt_self (by omega) (by omega)

/-- The digits of `n`, most significant first; zero has one. -/
def digits (R : Radix) (n : Nat) : List Nat :=
  R.digitsOnto n []

/-- The number whose digits these are, most significant first. -/
def ofDigits (R : Radix) (ds : List Nat) : Nat :=
  ds.foldl (fun value d => value * R.val + d) 0

/-- The first `count` digits after the point of `r / d`, for `r < d`. -/
def fractionDigits (R : Radix) : Nat → Nat → Nat → List Nat
  | 0, _, _ => []
  | count + 1, r, d => r * R.val / d :: R.fractionDigits count (r * R.val % d) d

/-- How many digits after the point a reduced fraction with denominator `d` takes; `none` if no
number of digits suffices. Each digit takes from `d` what it has in common with the base. -/
def placesOf? (base d : Nat) : Option Nat :=
  if d ≤ 1 then some 0
  else if d.gcd base ≤ 1 then none
  else (placesOf? base (d / d.gcd base)).map (· + 1)
termination_by d
decreasing_by exact Nat.div_lt_self (by omega) (by omega)

/-- How many digits after the point it takes to write `q`; `none` if its expansion never ends. -/
def places? (R : Radix) (q : Rat) : Option Nat :=
  placesOf? R.val q.den

/-- `q` has a finite digit expansion in the given base. -/
def terminates (base : Int) (q : Rat) : Bool :=
  (placesOf? base.natAbs q.den).isSome

/-- The `k` with `R ^ k ≤ q < R ^ (k + 1)`, for positive `q`. Below one, `R ^ j ≥ 1 / q` first holds
where `j` is the number of digits of the whole number just below `1 / q`. -/
def magnitude (R : Radix) (q : Rat) : Int :=
  if 1 ≤ q then (R.digits q.floor.toNat).length - 1
  else -(R.digits ((1 / q).ceil.toNat - 1)).length

end StackAlgebra.Radix
