import StackAlgebra.Error

/-!
# Choosing a radix

A radix is chosen by a whole number (`Radix.check`) or by a text (`Radix.read`): its abbreviation,
the digit it stands after, or the number in decimal digits of any script.
-/

namespace StackAlgebra.Radix

/-- The radix that a setting gives as a whole number. -/
def check (given : Setting) : Except Error Radix :=
  match given.toInt?.bind ofInt? with
  | some R => .ok R
  | none => .error (.badRadix given)

/-- The radix named by a digit: the one whose first missing digit it is. -/
def ofDigit? (c : Char) : Option Radix :=
  (Digit.value? c).bind ofNat?

/-- The radix written in decimal. A figure without a decimal value is no number at all. -/
def readNumber (cs : List Char) : Except Error Radix :=
  match readDecimal? cs with
  | some n => check (.integer n)
  | none => .error .meaninglessValue

/-- The radix that a text names. -/
def read (cs : List Char) : Except Error Radix :=
  let cs := trim cs
  match ofName? (String.ofList cs) with
  | some R => .ok R
  | none =>
    let byDigit := match cs with
      | [c] => ofDigit? c
      | _ => none
    match byDigit with
    | some R => .ok R
    | none =>
      if cs ≠ [] ∧ cs.all isDigitLike then readNumber cs
      else .error (.badRadix (.text (String.ofList cs)))

/-- The radix that a setting gives, texts being read. -/
def ofSetting (given : Setting) : Except Error Radix :=
  match given with
  | .text s => read s.toList
  | _ => check given

end StackAlgebra.Radix
