import StackAlgebra.Approximation
import StackAlgebra.Display.Layout
import StackAlgebra.Radix.Choice
import StackAlgebra.Radix.Writer

/-!
# Rendering

The text of an expression in a radix. Exact display loses nothing: a number whose digits never end
is written as a fraction. Approximate display folds the expression numerically first and truncates
every number.
-/

namespace StackAlgebra.Display

/-- How numbers are shown: in full, or truncated to a number of digits after the point. -/
inductive Mode where
  | exact
  | approx (precision : Int)
deriving DecidableEq

/-- Numbers are truncated. -/
def Mode.isApprox : Mode → Bool
  | exact => false
  | approx _ => true

/-- The text of a number. -/
def writeNumber (R : Radix) (mode : Mode) (q : Rat) : List Char :=
  match mode with
  | .exact => R.write q
  | .approx precision => R.writeApprox precision q

/-- The text of a piece. -/
def Piece.write (R : Radix) (mode : Mode) : Piece → List Char
  | text s => s.toList
  | number q => writeNumber R mode q

/-- The piece is a number. -/
def Piece.isNumber : Piece → Bool
  | text _ => false
  | number _ => true

/-- The text of pieces. -/
def write (R : Radix) (mode : Mode) (ps : List Piece) : String :=
  String.ofList (ps.flatMap (Piece.write R mode))

/-- The pieces that an expression is shown as. -/
def pieces (mode : Mode) (e : Expr) : Except Error (List Piece) := do
  if mode.isApprox then return layout true (← e.approximate) else return layout false e

/-- The expression as text. -/
def render (R : Radix) (mode : Mode) (e : Expr) : Except Error String := do
  return write R mode (← pieces mode e)

/-- The expression as text in a radix that is still to be checked, which matters where there are
numbers to write. -/
def renderIn (radix : Setting) (mode : Mode) (e : Expr) : Except Error String := do
  let ps ← pieces mode e
  match Radix.check radix with
  | .ok R => return write R mode ps
  | .error cause => if ps.any Piece.isNumber then throw cause else return write .decimal mode ps

end StackAlgebra.Display
