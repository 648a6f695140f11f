import StackAlgebra.Number.Division
import StackAlgebra.Radix.Choice
import StackAlgebra.Text.Word

/-!
# Reading numbers

`Radix.readNumeral` reads a rational: an optional sign, an optional radix before `#` with a sign of
its own, digits with a radix point, a fraction bar and a second such number, and an exponent. The
parts are split off from the outside in: sign, radix, exponent, fraction bar, point.
-/

namespace StackAlgebra.Radix

/-- The text before and after the first character that is `mark`; `none` if there is none. -/
def splitAt? (mark : Char) : List Char → Option (List Char × List Char)
  | [] => none
  | c :: cs =>
    if c = mark then some ([], cs)
    else (splitAt? mark cs).map fun (before, after) => (c :: before, after)

/-- A sign and what follows it. -/
def splitSign : List Char → Bool × List Char
  | '-' :: cs => (true, cs)
  | cs => (false, cs)

/-- A radix of one character before `#`, and the number after it. -/
def splitShortRadix? : List Char → Option (List Char × List Char)
  | a :: '#' :: rest => some ([a], rest)
  | _ => none

/-- The radix written before a number, three letters or any one character before `#`, and the number
after it. -/
def splitRadix? (cs : List Char) : Option (List Char × List Char) :=
  match cs with
  | a :: b :: c :: '#' :: rest =>
    if isLetter a && isLetter b && isLetter c then some ([a, b, c], rest) else splitShortRadix? cs
  | _ => splitShortRadix? cs

/-- The natural number with these digits. -/
def readNat (R : Radix) (cs : List Char) : Except Error Nat :=
  cs.foldlM (fun value c =>
    match R.digitValue? c with
    | some d => .ok (value * R.val + d)
    | none => .error (.invalidDigit c R)) 0

/-- A number with at most one radix point. -/
def readPoint (R : Radix) (cs : List Char) : Except Error Rat :=
  if 1 < cs.count '.' then .error (.invalidDigit '.' R)
  else
    let (whole, fractional) := (splitAt? '.' cs).getD (cs, [])
    if whole = [] ∧ fractional = [] then .error .emptyInput
    else do
      let n ← R.readNat whole
      let f ← R.readNat fractional
      return (n : Rat) + (f : Rat) / (R.val : Rat) ^ fractional.length

/-- A number, or a fraction of two. -/
def readFraction (R : Radix) (cs : List Char) : Except Error Rat :=
  match splitAt? '/' cs with
  | none => R.readPoint cs
  | some (numerator, denominator) => do
    let n ← R.readPoint numerator
    divide n (← R.readPoint denominator)

/-- The mantissa and the exponent of a number. -/
def splitExponent (R : Radix) (cs : List Char) : List Char × Option (List Char) :=
  let atMark := splitAt? exponentMark cs
  let split := if letterMarksExponent R.val then atMark.or (splitAt? 'e' cs) else atMark
  match split with
  | some (mantissa, exponent) => (mantissa, some exponent)
  | none => (cs, none)

/-- An exponent: one or more minus signs count as one. -/
def readExponent (R : Radix) (cs : List Char) : Except Error Int :=
  let digits := cs.dropWhile (· = '-')
  if digits = [] then .error .emptyExponent
  else do
    let n ← R.readNat digits
    return if cs.head? = some '-' then -(n : Int) else n

/-- A number without sign and radix. -/
def readUnsigned (R : Radix) (cs : List Char) : Except Error Rat := do
  let (mantissa, exponent?) := R.splitExponent cs
  let value ← R.readFraction mantissa
  match exponent? with
  | none => return value
  | some exponent => return value * (R.val : Rat) ^ (← R.readExponent exponent)

/-- A number in the radix, or in the radix that it names itself. -/
def readNumeral (R : Radix) (text : List Char) : Except Error Rat := do
  let (negative, cs) := splitSign (trim text)
  if cs = [] then throw .emptyInput
  match splitRadix? cs with
  | none =>
    let value ← R.readUnsigned cs
    return if negative then -value else value
  | some (chosen, body) =>
    let R ← read chosen
    let (negativeBody, cs) := splitSign body
    if cs = [] then throw .emptyInput
    let value ← R.readUnsigned cs
    return if negative != negativeBody then -value else value

end StackAlgebra.Radix
