import StackAlgebra.Angle
import StackAlgebra.Radix.Choice

/-!
# Configuration

The settings that a calculator works under: the radix of input and display, the digits after the
point in approximate display, and the angle measure.
-/

namespace StackAlgebra

/-- Display and evaluation settings. -/
structure Config where
  radix : Radix := .decimal
  precision : Nat := 3
  angle : AngleMeasure := .rad
deriving DecidableEq

namespace Config

/-- The cause behind a value that is no whole number. -/
def causeOf : NotIntegral → Error
  | .malformed => .meaninglessValue
  | .wrongKind => .wrongArguments
  | .infinite => .tooLarge

/-- A precision is a whole number, not negative. -/
def checkPrecision (given : Setting) : Except Error Nat :=
  match given.integral with
  | .error why => .error (causeOf why)
  | .ok (.ofNat n) => .ok n
  | .ok n => .error (.badPrecision n)

/-- An angle measure is given by its name. -/
def checkAngle (given : Setting) : Except Error AngleMeasure :=
  match given with
  | .text name =>
    match AngleMeasure.find? name with
    | some m => .ok m
    | none => .error (.badMeasure given)
  | .list _ | .record _ => .error .wrongArguments
  | _ => .error (.badMeasure given)

/-- The value to check, a default standing in for an absent one. -/
def orDefault (given default : Setting) : Setting :=
  match given with
  | .absent => default
  | _ => given

/-- The configuration with these settings, absent ones at their defaults. -/
def make (radix precision angle : Setting) : Except Error Config := do
  let default : Config := {}
  let radix ← Radix.check (orDefault radix (.integer default.radix.val))
  let precision ← checkPrecision (orDefault precision (.integer default.precision))
  let angle ← checkAngle (orDefault angle (.text default.angle.name))
  return { radix, precision, angle }

/-- Only the errors of the calculator's own pass; any other becomes `cause`. -/
def reportAs {α : Type} (cause : Error) (result : Except Error α) : Except Error α :=
  match result with
  | .error e => .error (if e.isReportable then e else cause)
  | .ok a => .ok a

/-- The radix replaced; a text is read. -/
def withRadix (c : Config) (given : Setting) : Except Error Config := do
  return { c with radix := ← reportAs (.unreadableRadix given) (Radix.ofSetting given) }

/-- The precision replaced. -/
def withPrecision (c : Config) (given : Setting) : Except Error Config := do
  return { c with precision := ← reportAs (.unreadablePrecision given) (checkPrecision given) }

/-- The angle measure replaced. -/
def withAngle (c : Config) (given : Setting) : Except Error Config := do
  return { c with angle := ← checkAngle given }

/-- The settings as one line. -/
def text (c : Config) : String :=
  "Config(radix=" ++ toString c.radix.val ++ ", precision=" ++ toString c.precision ++
    ", angle_measure=" ++ quoted c.angle.name ++ ")"

end Config
end StackAlgebra
