/-!
# Constants

Named constants of mathematics and physics. Exact algebra treats them as opaque atoms; the tabulated
values serve approximate display only.
-/

namespace StackAlgebra

attribute [local instance (high)] instPowNat

/-- The constants that have a name. -/
inductive Constant where
  /-- Ratio of a circle's circumference to its diameter. -/
  | pi
  /-- Ratio of a circle's circumference to its radius. -/
  | tau
  /-- The limit of `(1 + 1 / n) ^ n` as `n` grows without bound. -/
  | euler
  /-- Euler's constant. -/
  | gamma
  /-- Speed of light in vacuum, m/s. -/
  | lightSpeed
  /-- Constant of gravitation, m³/(kg s²). -/
  | gravitation
  /-- Planck constant, J/Hz. -/
  | planck
  /-- Reduced Planck constant, J s. -/
  | reducedPlanck
  /-- Boltzmann constant, J/K. -/
  | boltzmann
  /-- Elementary charge, C. -/
  | electronCharge
  /-- Electron mass, kg. -/
  | electronMass
  /-- Proton mass, kg. -/
  | protonMass
  /-- Avogadro constant, 1/mol. -/
  | avogadro
  /-- Hyperfine transition frequency of caesium-133, Hz. -/
  | caesiumFrequency
  /-- Luminous efficacy of 540 THz radiation, lm/W. -/
  | luminousEfficacy
deriving DecidableEq

namespace Constant

/-- All constants. -/
def all : List Constant :=
  [pi, tau, euler, gamma, lightSpeed, gravitation, planck, reducedPlanck, boltzmann, electronCharge,
   electronMass, protonMass, avogadro, caesiumFrequency, luminousEfficacy]

/-- The name by which a constant is ordered and stored. -/
def name : Constant → String
  | pi => "pi"
  | tau => "tau"
  | euler => "e"
  | gamma => "gamma"
  | lightSpeed => "c"
  | gravitation => "G"
  | planck => "h"
  | reducedPlanck => "hbar"
  | boltzmann => "k"
  | electronCharge => "qe"
  | electronMass => "me"
  | protonMass => "mp"
  | avogadro => "na"
  | caesiumFrequency => "vcs"
  | luminousEfficacy => "kcd"

/-- The symbol under which a constant is shown. -/
def symbol : Constant → String
  | pi => "π"
  | tau => "τ"
  | euler => "e"
  | gamma => "γ"
  | lightSpeed => "c"
  | gravitation => "G"
  | planck => "h"
  | reducedPlanck => "ħ"
  | boltzmann => "k"
  | electronCharge => "qₑ"
  | electronMass => "mₑ"
  | protonMass => "mₚ"
  | avogadro => "Nₐ"
  | caesiumFrequency => "Δνcs"
  | luminousEfficacy => "Kcd"

/-- `digits / 10 ^ places`. -/
def scaled (digits places : Nat) : Rat :=
  (digits : Rat) / ((10 ^ places : Nat) : Rat)

/-- The tabulated value. -/
def value : Constant → Rat
  | pi => scaled 314159265358979323846264338327950288419716939937510 50
  | tau => scaled 628318530717958647692528676655900576839433879875021 50
  | euler => scaled 271828182845904523536028747135266249775724709369995 50
  | gamma => scaled 57721566490153286060651209008240243104215933593992 50
  | lightSpeed => 299792458
  | gravitation => scaled 667430 16
  | planck => scaled 662607015 42
  | reducedPlanck => scaled 1054571817646156391262428003302280744 70
  | boltzmann => scaled 1380649 29
  | electronCharge => scaled 1602176634 28
  | electronMass => scaled 91093837015 41
  | protonMass => scaled 167262192369 38
  | avogadro => 602214076000000000000000
  | caesiumFrequency => 9192631770
  | luminousEfficacy => 683

/-- The constant with this name or symbol. -/
def find? (text : String) : Option Constant :=
  (all.find? (·.name = text)).or (all.find? (·.symbol = text))

end Constant
end StackAlgebra
