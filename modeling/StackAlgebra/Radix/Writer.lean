import StackAlgebra.Error
import StackAlgebra.Radix.Digits

/-!
# Writing numbers

A rational is written exactly (`Radix.writeExact`), as a fraction where its digits never end
(`Radix.write`), or truncated to a number of digits after the point (`Radix.writeApprox`). A
truncated number that is very large or very small is written with an exponent, which is a whole
number in the same radix. Whole numbers can also be written in bases that are no radices
(`Radix.writeInBase`), as far as there are digits for it.
-/

namespace StackAlgebra.Radix

/-- The text of digits. -/
def digitText (ds : List Nat) : List Char :=
  ds.map Digit.ofValue

/-- A natural number in the radix. -/
def writeNat (R : Radix) (n : Nat) : List Char :=
  digitText (R.digits n)

/-- A whole number in the radix. -/
def writeInt (R : Radix) (n : Int) : List Char :=
  if n < 0 then '-' :: R.writeNat n.natAbs else R.writeNat n.natAbs

/-- The sign of a rational, in front of the text of its magnitude. -/
def signed (q : Rat) (magnitude : List Char) : List Char :=
  if q < 0 then '-' :: magnitude else magnitude

/-- `q` in full; `none` if its digits never end. -/
def writeExact? (R : Radix) (q : Rat) : Option (List Char) :=
  (R.places? q).map fun places =>
    let n := q.num.natAbs
    signed q <| R.writeNat (n / q.den) ++
      if places = 0 then [] else '.' :: digitText (R.fractionDigits places (n % q.den) q.den)

/-- `q` in full. -/
def writeExact (R : Radix) (q : Rat) : Except Error (List Char) :=
  match R.writeExact? q with
  | some cs => .ok cs
  | none => .error (.nonTerminating q.abs R)

/-- `q` in full, as a fraction of whole numbers if its digits never end. -/
def write (R : Radix) (q : Rat) : List Char :=
  match R.writeExact? q with
  | some cs => cs
  | none => R.writeInt q.num ++ '/' :: R.writeNat q.den

/-- A non-negative rational with exactly `precision` digits after the point, the rest cut off. -/
def writeTruncated (R : Radix) (precision : Int) (q : Rat) : List Char :=
  let n := q.num.natAbs
  R.writeNat (n / q.den) ++
    if precision ≤ 0 then []
    else '.' :: digitText (R.fractionDigits precision.toNat (n % q.den) q.den)

/-- Exponents come into use at this power of the radix. -/
def scientificFrom : Nat := 6

/-- A positive rational is too large or too small to be written without an exponent. -/
def needsExponent (R : Radix) (precision : Int) (q : Rat) : Bool :=
  (R.val : Rat) ^ scientificFrom ≤ q || q < (R.val : Rat) ^ (-precision)

/-- A positive rational with an exponent: one digit before the point. -/
def writeScientific (R : Radix) (precision : Int) (q : Rat) : List Char :=
  let k := R.magnitude q
  R.writeTruncated precision (q / (R.val : Rat) ^ k) ++ exponentMark :: R.writeInt k

/-- `q` truncated to `precision` digits after the point. -/
def writeApprox (R : Radix) (precision : Int) (q : Rat) : List Char :=
  signed q <|
    if q ≠ 0 ∧ R.needsExponent precision q.abs then R.writeScientific precision q.abs
    else R.writeTruncated precision q.abs

/-! ## Other bases -/

/-- The digit at an index of the alphabet. A negative index counts from the end. -/
def digitAt? (index : Int) : Option Char :=
  if 0 ≤ index then Digit.alphabet[index.toNat]?
  else if index.natAbs ≤ Digit.alphabet.length then
    Digit.alphabet[Digit.alphabet.length - index.natAbs]?
  else none

/-- The remainders of at most `count` divisions of `n` and its quotients, rounded down, by a base;
the last remainder stands first, and all stand in front of `low`. Nothing is left to divide once the
quotient is zero. -/
def remaindersOnto (base : Int) : Nat → Int → List Int → List Int
  | 0, _, low => low
  | count + 1, n, low =>
    if n = 0 then low else remaindersOnto base count (n.fdiv base) (n.fmod base :: low)

/-- A whole number in any base. A division at least halves the magnitude, rounded up, and takes one
to minus one or to zero, so that three more divisions than there are binary places suffice. -/
def writeInBase (base : Setting) (n : Int) : Except Error (List Char) :=
  if n = 0 then .ok ['0']
  else
    match base.toInt? with
    | none => .error .wrongArguments
    | some b =>
      if b = 0 then .error .machineDivision
      else
        match (remaindersOnto b (n.natAbs.log2 + 3) n.natAbs []).mapM digitAt? with
        | none => .error .indexOutOfRange
        | some cs => .ok (if n < 0 then '-' :: cs else cs)

/-- `q` has a finite expansion in a base. A whole number has one whatever is given for the base. -/
def terminatesIn (base : Setting) (q : Rat) : Except Error Bool :=
  if q.den = 1 then .ok true
  else
    match base.toInt? with
    | none => .error .wrongArguments
    | some b => .ok (terminates b q)

/-- The letter `e` marks an exponent in a base. Beside the whole alphabet, if no base is given, it
does not. -/
def letterMarksExponentIn (base : Setting) : Except Error Bool :=
  match base, base.toInt? with
  | .absent, _ => .ok false
  | _, none => .error .wrongArguments
  | _, some b => .ok (letterMarksExponent b)

end StackAlgebra.Radix
