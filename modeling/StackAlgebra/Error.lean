import StackAlgebra.Radix.Basic
import StackAlgebra.Setting

/-!
# What can go wrong

`Error` lists the causes. Those that a user of the calculator can bring about have a message; most
of these carry a two-digit code in front (`Error.code?`, `Error.message?`). The rest have no wording
of their own: they say that a caller handed over something the operation is not defined on.
-/

namespace StackAlgebra

/-- The text of a rational: its numerator, and its denominator unless that is one. -/
def rationalText (q : Rat) : String :=
  if q.den = 1 then toString q.num else toString q.num ++ "/" ++ toString q.den

/-- The causes of failure. -/
inductive Error where
  /-- A division, a zero power or a remainder by zero. -/
  | divisionByZero
  /-- A logarithm to base one. -/
  | logBaseOne
  /-- Zero to the power zero. -/
  | zeroToZero
  /-- A value that is no real number. -/
  | complexResult
  /-- A logarithm to a base that is not positive. -/
  | logBase (base : Rat)
  /-- A logarithm of a number that is not positive. -/
  | logOfNonpositive
  /-- The tangent of an odd multiple of a quarter turn. -/
  | tangentPole
  /-- Something given as a radix that is none. -/
  | badRadix (given : Setting)
  /-- A negative precision. -/
  | badPrecision (given : Int)
  /-- Something given as an angle measure that is none. -/
  | badMeasure (given : Setting)
  /-- A name or symbol that no constant has. -/
  | noConstant (name : String)
  /-- A variable without a name. -/
  | emptyVariable
  /-- A name that no operator has. -/
  | noOperator (name : String)
  /-- A rest of a line that begins no lexeme. -/
  | unlexable (rest : String)
  /-- A character where a digit of the radix should be. -/
  | invalidDigit (c : Char) (radix : Radix)
  /-- A number without digits. -/
  | emptyInput
  /-- An exponent without digits. -/
  | emptyExponent
  /-- An entry asked of an empty stack. -/
  | emptyStack
  /-- An operator with fewer entries than it takes. -/
  | tooFewEntries (name : String) (arity : Nat)
  /-- An exchange of two entries where there are not two. -/
  | nothingToSwap
  /-- An index at which the stack has no entry. -/
  | noEntry (index : Int)
  /-- A rational whose digits never end. -/
  | nonTerminating (q : Rat) (radix : Radix)
  /-- A radix setting that could not even be read. -/
  | unreadableRadix (given : Setting)
  /-- A precision setting that could not even be read. -/
  | unreadablePrecision (given : Setting)
  /-- An argument of the right kind without a meaning: a root of a negative number, a figure without
  decimal value, an unknown kind of expression. -/
  | meaninglessValue
  /-- A measure or an operator looked up under a name that is not there. -/
  | unknownName
  /-- A wrong number or kind of arguments. -/
  | wrongArguments
  /-- An order asked of expressions that have none: they differ first in that an angle function has
  a measure in one of them and none in the other. -/
  | incomparable
  /-- A quotient of machine numbers, or a root, by zero. -/
  | machineDivision
  /-- An index past the end. -/
  | indexOutOfRange
  /-- A number too large for its type. -/
  | tooLarge

/-- The class of a cause, as callers tell them apart. -/
inductive Error.Kind where
  | divisionByZero | undefined | badInput | invalidDigit | emptyInput | stackUnderflow
  | nonTerminating | unreadable
  | value | lookup | type | zeroDivision | index | overflow
deriving DecidableEq

namespace Error

/-- The class of a cause. -/
def kind : Error → Kind
  | divisionByZero | logBaseOne => .divisionByZero
  | zeroToZero | complexResult | logBase _ | logOfNonpositive | tangentPole => .undefined
  | badRadix _ | badPrecision _ | badMeasure _ | noConstant _ | emptyVariable | noOperator _
  | unlexable _ => .badInput
  | invalidDigit _ _ => .invalidDigit
  | emptyInput | emptyExponent => .emptyInput
  | emptyStack | tooFewEntries _ _ | nothingToSwap | noEntry _ => .stackUnderflow
  | nonTerminating _ _ => .nonTerminating
  | unreadableRadix _ | unreadablePrecision _ => .unreadable
  | meaninglessValue => .value
  | unknownName => .lookup
  | wrongArguments | incomparable => .type
  | machineDivision => .zeroDivision
  | indexOutOfRange => .index
  | tooLarge => .overflow

/-- The cause is one that the calculator reports to its user. -/
def isReportable (e : Error) : Bool :=
  match e.kind with
  | .value | .lookup | .type | .zeroDivision | .index | .overflow => false
  | _ => true

/-- The cause lies in a text that could not be read. -/
def isBadInput (e : Error) : Bool :=
  match e.kind with
  | .badInput | .invalidDigit | .emptyInput => true
  | _ => false

/-- The code that goes in front of a message. -/
def Kind.code? : Kind → Option String
  | .divisionByZero => some "E00"
  | .undefined => some "E01"
  | .badInput => some "E02"
  | .invalidDigit => some "E03"
  | .emptyInput => some "E04"
  | .stackUnderflow => some "E05"
  | _ => none

/-- `entry` or `entries`, as the number asks for. -/
def entries (count : Nat) : String :=
  if count = 1 then "entry" else "entries"

/-- The wording of a cause, without its code. -/
def wording : Error → String
  | divisionByZero => "divide by zero"
  | logBaseOne => "log base 1"
  | zeroToZero => "0^0"
  | complexResult => "complex result"
  | logBase base => "log base " ++ rationalText base
  | logOfNonpositive => "log of n ≤ 0"
  | tangentPole => "tangent of π/2"
  | badRadix given => "bad radix " ++ given.written
  | badPrecision given => "bad precision " ++ toString given
  | badMeasure given => "no such angle measure " ++ given.written
  | noConstant name => "no such constant " ++ quoted name
  | emptyVariable => "empty variable name"
  | noOperator name => "no such operator " ++ quoted name
  | unlexable rest => "Couldn't lex " ++ rest
  | invalidDigit c radix => "invalid digit " ++ quoted (String.singleton c) ++ " in " ++ radix.name
  | emptyInput => "empty input"
  | emptyExponent => "empty exponent"
  | emptyStack => "not enough entries on stack"
  | tooFewEntries name arity => name ++ " needs " ++ toString arity ++ " " ++ entries arity
  | nothingToSwap => "swap needs 2 entries"
  | noEntry index => "no entry " ++ toString index
  | nonTerminating q radix => rationalText q ++ " does not terminate in " ++ radix.name
  | unreadableRadix given => "Bad radix " ++ given.written
  | unreadablePrecision given => "Bad precision " ++ given.written
  | meaninglessValue => "meaningless value"
  | unknownName => "unknown name"
  | wrongArguments => "wrong arguments"
  | incomparable => "expressions without an order"
  | machineDivision => "division of machine numbers by zero"
  | indexOutOfRange => "index out of range"
  | tooLarge => "number too large"

/-- The wording with its code in front, if it has one. -/
def message (e : Error) : String :=
  match e.kind.code? with
  | some code => code ++ ": " ++ e.wording
  | none => e.wording

end Error
end StackAlgebra
