import StackAlgebra.Constant
import StackAlgebra.Error

/-!
# Expressions

Algebraic expressions over the rationals with named constants and variables. A tree is built as it
is written; `Expr.simplify` (in `Canonical/Simplify`) gives its canonical form. The parts of a
sum's term (`Expr.splitCoefficient`) and of a product's factor (`Expr.splitPower`) are told apart
here.
-/

namespace StackAlgebra

/-- Functions of one operand and nothing else. -/
inductive UnaryFunction where
  | neg | recip | abs | sqrt | square | ln
deriving DecidableEq

/-- Functions to and from angles. -/
inductive AngleFunction where
  | sin | cos | tan | asin | acos | atan
deriving DecidableEq

/-- An algebraic expression. An angle function keeps the name of its angle measure as it was given,
or none; the name is looked up when a value is needed. -/
inductive Expr where
  | num (value : Rat)
  | const (c : Constant)
  | var (name : String)
  | sum (terms : List Expr)
  | product (factors : List Expr)
  | power (base exponent : Expr)
  | unary (f : UnaryFunction) (operand : Expr)
  | log (operand base : Expr)
  | mod (operand divisor : Expr)
  | angle (f : AngleFunction) (operand : Expr) (measure : Option String)

/-- The name of a function. -/
def UnaryFunction.name : UnaryFunction → String
  | neg => "neg"
  | recip => "recip"
  | abs => "abs"
  | sqrt => "sqrt"
  | square => "square"
  | ln => "ln"

/-- All functions of one operand. -/
def UnaryFunction.all : List UnaryFunction :=
  [neg, recip, abs, sqrt, square, ln]

/-- The name of a function. -/
def AngleFunction.name : AngleFunction → String
  | sin => "sin"
  | cos => "cos"
  | tan => "tan"
  | asin => "asin"
  | acos => "acos"
  | atan => "atan"

/-- All functions to and from angles. -/
def AngleFunction.all : List AngleFunction :=
  [sin, cos, tan, asin, acos, atan]

/-- The function takes a number and answers an angle. -/
def AngleFunction.isInverse : AngleFunction → Bool
  | asin | acos | atan => true
  | sin | cos | tan => false

namespace Expr

/-- The constant with this name or symbol. -/
def ofConstantName (name : String) : Except Error Expr :=
  match Constant.find? name with
  | some c => .ok (.const c)
  | none => .error (.noConstant name)

/-- The variable with this name, which must not be empty. -/
def ofVariableName (name : String) : Except Error Expr :=
  if name = "" then .error .emptyVariable else .ok (.var name)

/-- The expression is a number. -/
def isNum : Expr → Bool
  | num _ => true
  | _ => false

/-- The expression is a product. -/
def isProduct : Expr → Bool
  | product _ => true
  | _ => false

/-- The number that an expression is. -/
def value? : Expr → Option Rat
  | num q => some q
  | _ => none

/-- The expression is the number zero. -/
def isZero : Expr → Bool
  | num q => q = 0
  | _ => false

/-- The expression is the number one. -/
def isOne : Expr → Bool
  | num q => q = 1
  | _ => false

/-- The expression is a whole number. -/
def isInteger : Expr → Bool
  | num q => q.den = 1
  | _ => false

/-- The expression is an even number. -/
def isEven : Expr → Bool
  | num q => q.den = 1 && q.num % 2 = 0
  | _ => false

/-- The product of the numbers among the factors. -/
def coefficientOf : List Expr → Rat
  | [] => 1
  | num q :: fs => q * coefficientOf fs
  | _ :: fs => coefficientOf fs

/-- The factors that are no numbers. -/
def nonNumbers (fs : List Expr) : List Expr :=
  fs.filter (!·.isNum)

/-- The product of the factors; `none` if there is none, the factor itself if it stands alone. -/
def productOf? : List Expr → Option Expr
  | [] => none
  | [f] => some f
  | fs => some (product fs)

/-- A term's rational coefficient and the rest of it. A number has no rest. -/
def splitCoefficient : Expr → Rat × Option Expr
  | num q => (q, none)
  | product fs => (coefficientOf fs, productOf? (nonNumbers fs))
  | e => (1, some e)

/-- A factor's base and exponent. -/
def splitPower : Expr → Expr × Expr
  | power b e => (b, e)
  | e => (e, num 1)

/-- The factors of a product; any other expression is its own only factor. -/
def factors : Expr → List Expr
  | product fs => fs
  | e => [e]

end Expr
end StackAlgebra
