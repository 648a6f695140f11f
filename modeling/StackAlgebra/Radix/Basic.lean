/-!
# Radices

A radix is a whole number from 2 to 64. Each has a three-letter abbreviation, and the digits of all
radices come from one alphabet of 64 characters: digit `d` of any radix is the alphabet's character
number `d`.
-/

namespace StackAlgebra

/-- A base of positional notation for which there are digits. -/
structure Radix where
  val : Nat
  two_le : 2 ≤ val
  le_max : val ≤ 64
deriving DecidableEq

namespace Radix

/-- The radix of everyday numbers. -/
def decimal : Radix := ⟨10, by decide, by decide⟩

/-- The radix `n`, if there is one. -/
def ofNat? (n : Nat) : Option Radix :=
  if h : 2 ≤ n ∧ n ≤ 64 then some ⟨n, h.1, h.2⟩ else none

/-- The radix `n`, if there is one. -/
def ofInt? : Int → Option Radix
  | .ofNat n => ofNat? n
  | .negSucc _ => none

/-- The abbreviations of the radices 2, 3, …, 64. -/
def abbreviations : List String :=
  ["bin", "tri", "qua", "qui", "sex", "sep", "oct", "non", "dec", "ele",
   "doz", "bak", "bis", "trq", "hex", "sub", "trs", "unt", "vig", "tis",
   "bie", "unb", "tet", "pen", "bik", "trn", "ter", "utt", "pet", "unp",
   "ttr", "trl", "bib", "pnt", "nif", "unn", "bit", "trk", "pec", "upn",
   "hes", "unh", "tel", "pnn", "bnb", "ubn", "hec", "hep", "peg", "trb",
   "tek", "unr", "hen", "pel", "het", "tin", "bnt", "ubt", "heg", "unx",
   "bip", "hpt", "occ"]

/-- The abbreviation of a radix. -/
def name (R : Radix) : String :=
  abbreviations.get ⟨R.val - 2, by
    have h : abbreviations.length = 63 := by decide
    have := R.two_le
    have := R.le_max
    omega⟩

/-- The radix with this abbreviation. -/
def ofName? (text : String) : Option Radix :=
  (abbreviations.idxOf? text).bind fun i => ofNat? (i + 2)

end Radix

namespace Digit

/-- The digits of all radices, by value. -/
def alphabet : List Char :=
  "0123456789abcdefghijklmnopqrstuvwxyzABCDEFGHIJKLMNOPQRSTUVWXYZ!@".toList

/-- The digit of value `d`. -/
def ofValue (d : Nat) : Char :=
  alphabet.getD d '0'

/-- The value of a digit, in whatever radix. -/
def value? (c : Char) : Option Nat :=
  alphabet.idxOf? c

/-- `c` is a digit of some radix. -/
def isAny (c : Char) : Bool :=
  alphabet.contains c

end Digit

namespace Radix

/-- The value of `c` as a digit of this radix. -/
def digitValue? (R : Radix) (c : Char) : Option Nat :=
  (Digit.value? c).filter (· < R.val)

/-- `c` is a digit of this radix. -/
def isDigit (R : Radix) (c : Char) : Bool :=
  (R.digitValue? c).isSome

/-- Always marks an exponent. The letter `e` does too, in a radix where it is no digit. -/
def exponentMark : Char := 'ᴇ'

/-- The letter `e` marks an exponent: it is not among the first `count` digits, the count being
taken from the end of the alphabet when it is negative. -/
def letterMarksExponent (count : Int) : Bool :=
  let kept := if count < 0 then Digit.alphabet.length - count.natAbs else count.toNat
  !(Digit.alphabet.take kept).contains 'e'

end Radix
end StackAlgebra
