/-!
# Angle measures

An angle measure fixes the size of a full turn. For radians that is `2π`, for all others a rational.
-/

namespace StackAlgebra

/-- The units in which angles are given. -/
inductive AngleMeasure where
  | rad | turn | grad | deg | min | sec | mulPi | quad | sext | hexacontade | bdeg | hour | point
  | mil
deriving DecidableEq

namespace AngleMeasure

/-- All angle measures. -/
def all : List AngleMeasure :=
  [rad, turn, grad, deg, min, sec, mulPi, quad, sext, hexacontade, bdeg, hour, point, mil]

/-- The name of a measure. -/
def name : AngleMeasure → String
  | rad => "rad"
  | turn => "turn"
  | grad => "grad"
  | deg => "deg"
  | min => "min"
  | sec => "sec"
  | mulPi => "mulπ"
  | quad => "quad"
  | sext => "sext"
  | hexacontade => "hexacontade"
  | bdeg => "bdeg"
  | hour => "hour"
  | point => "point"
  | mil => "mil"

/-- The rational factor of a full turn. -/
def turnFactor : AngleMeasure → Rat
  | rad => 2
  | turn => 1
  | grad => 400
  | deg => 360
  | min => 21600
  | sec => 1296000
  | mulPi => 2
  | quad => 4
  | sext => 6
  | hexacontade => 60
  | bdeg => 256
  | hour => 24
  | point => 32
  | mil => 6400

/-- A full turn is a multiple of `π`. -/
def hasPi : AngleMeasure → Bool
  | rad => true
  | _ => false

/-- The measure of this name. -/
def find? (text : String) : Option AngleMeasure :=
  all.find? (·.name = text)

end AngleMeasure
end StackAlgebra
