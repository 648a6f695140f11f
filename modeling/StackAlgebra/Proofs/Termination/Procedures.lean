import StackAlgebra.Canonical.Simplify
import StackAlgebra.Proofs.Termination.Budget

/-!
# The canonical form step by step

`Expr.simplify` and the operations below it are defined with the measures that let them end. Here
they are written down once more as they go on, without any measure: nested sums and products are
taken apart by a loop over a stack, like terms are added up and equal bases gathered on the way,
merged bases are gone through one after the other, and a product that has expanded, or a power of a
power, just starts over with what it has. What keeps all of this within bounds is a budget, of which
each turn of a loop and each call spends one unit.
-/

namespace StackAlgebra.Canonical

open Budgeted (spent known workList)
open StackAlgebra.Expr (num)

/-! ## Sums -/

/-- The terms of a sum. -/
def terms? : Expr → Option (List Expr)
  | .sum ts => some ts
  | _ => none

/-- Add to the coefficient of what stands beside it, zero if there is none yet. -/
def addCoefficient (rest : Expr) (c : Rat) : List (Expr × Rat) → List (Expr × Rat)
  | [] => [(rest, 0 + c)]
  | (r, q) :: like =>
    if r.same rest then (r, q + c) :: like else (r, q) :: addCoefficient rest c like

/-- Take a term into account: a number in the constant, any other in the coefficient of its rest. -/
def takeTerm (s : Rat × List (Expr × Rat)) (t : Expr) : Rat × List (Expr × Rat) :=
  match t.splitCoefficient with
  | (c, none) => (s.1 + c, s.2)
  | (c, some rest) => (s.1, addCoefficient rest c s.2)

/-- The term of a rest and its coefficient, unless that is zero. -/
def likeTerm (g : Expr × Rat) : Option Expr :=
  if g.2 = 0 then none else some (term g.2 g.1)

/-- The sum of terms. -/
def sumWithin (n : Nat) (ts : List Expr) : Budgeted Expr := do
  let (c, like) ← workList terms? takeTerm n ts.reverse (0, [])
  known (inOrder (sumOf (like.filterMap likeTerm ++ if c = 0 then [] else [num c])))

/-! ## Powers of numbers -/

attribute [local instance (high)] instPowNat

/-- Newton's iteration for the `k`-th root of `n`. -/
def descendWithin (k n : Nat) : Nat → Nat → Budgeted Nat
  | 0, _ => spent
  | m + 1, x =>
    let y := ((k - 1) * x + n / x ^ (k - 1)) / k
    if x ≤ y then pure x else descendWithin k n m y

/-- The floor of the `k`-th root of `n`. -/
def floorWithin (m k n : Nat) : Budgeted Nat :=
  if n < 2 then pure n
  else if Root.bitLength n ≤ k then pure 1
  else descendWithin k n m (Root.start k (Root.bitLength n))

/-- The exact `k`-th root of a non-negative rational, if it is rational. -/
def rootWithin (m k : Nat) (q : Rat) : Budgeted (Option Rat) := do
  let n ← floorWithin m k q.num.natAbs
  let d ← floorWithin m k q.den
  return if Root.isRoot k n q.num.natAbs &&
    Root.isRoot k d q.den then some ((n : Rat) / (d : Rat)) else none

/-- `b ^ e` for rationals other than zero. -/
def rationalPowerWithin (m : Nat) (b e : Rat) : Budgeted Expr :=
  if e.den = 1 then pure (num (b ^ e.num))
  else if b < 0 ∧ e.den % 2 = 0 then known (.error .complexResult)
  else do
    match ← rootWithin m e.den b.abs with
    | some root => pure (num ((if 0 < b then root else -root) ^ e.num))
    | none =>
      let whole := e.floor
      let part := Expr.power (num b) (num (e - whole))
      pure (if whole = 0 then part else .product (Expr.sort [num (b ^ whole), part]))

/-- A power of the number `b`, the exponent being neither zero nor one. -/
def numberPowerWithin (m : Nat) (b : Rat) (e : Expr) : Budgeted Expr :=
  if b = 1 then pure (num 1)
  else
    match e with
    | num q =>
      if b = 0 then if q < 0 then known (.error .divisionByZero) else pure (num 0)
      else rationalPowerWithin m b q
    | e => pure (.power (num b) e)

/-! ## Products and powers -/

/-- The factors of a product. -/
def factors? : Expr → Option (List Expr)
  | .product fs => some fs
  | _ => none

/-- Take a factor into account: a number in the coefficient, any other among the exponents of its
base. -/
def takeFactor (s : Rat × List (Expr × List Expr)) (f : Expr) : Rat × List (Expr × List Expr) :=
  match f with
  | num q => (s.1 * q, s.2)
  | f => (s.1, addTo f.splitPower.1 f.splitPower.2 s.2)

/-- What the loop over the bases has come to: the coefficient, the merged factors, and whether one
of them is a product, so that its factors may merge with the others. -/
structure Merged where
  coefficient : Rat
  factors : List Expr
  expanded : Bool

/-- Take a merged base into account. -/
def Merged.take (s : Merged) (m : Expr) : Merged :=
  match m with
  | num q => { s with coefficient := s.coefficient * q }
  | m => { s with factors := s.factors ++ [m], expanded := s.expanded || m.isProduct }

/-- Merge the bases one after the other. -/
def mergeEach (merge : Expr × List Expr → Budgeted Expr) :
    List (Expr × List Expr) → Merged → Budgeted Merged
  | [], s => pure s
  | g :: gs, s => do
    let m ← merge g
    mergeEach merge gs (s.take m)

/-- Put merged factors together. If one of them has expanded they are multiplied once more, and a
number is distributed over a sum that stands alone. -/
def multiplyWithin (product : List Expr → Budgeted Expr) (n : Nat) (s : Merged) : Budgeted Expr :=
  if s.expanded then product (s.factors ++ [num s.coefficient])
  else if s.coefficient = 0 then pure (num 0)
  else if s.coefficient = 1 then known (inOrder (collapse s.factors))
  else
    match s.factors with
    | [.sum ts] => do
      let rs ← ts.mapM fun t => product [num s.coefficient, t]
      sumWithin n rs
    | fs => known (inOrder (collapse (fs ++ [num s.coefficient])))

mutual
/-- The product of factors. -/
def productWithin : Nat → List Expr → Budgeted Expr
  | 0, _ => spent
  | n + 1, fs => do
    let (c, bases) ← workList factors? takeFactor n fs.reverse (1, [])
    if c = 0 then pure (num 0)
    else do
      let s ← mergeEach (fun g => mergeWithin n g) bases ⟨c, [], false⟩
      multiplyWithin (fun fs => productWithin n fs) n s

/-- The power that a base has in a product. -/
def mergeWithin : Nat → Expr × List Expr → Budgeted Expr
  | 0, _ => spent
  | _ + 1, (b, [e]) => pure (bare b e)
  | n + 1, (b, es) => do
    let e ← sumWithin n es
    powerWithin n b e

/-- The power of a base to an exponent. -/
def powerWithin : Nat → Expr → Expr → Budgeted Expr
  | 0, _, _ => spent
  | n + 1, b, e =>
    if e.isZero then if b.isZero then known (.error .zeroToZero) else pure (num 1)
    else if e.isOne then pure b
    else
      match b with
      | num q => numberPowerWithin n q e
      | .power b' a => do
        let x ← productWithin n [a, e]
        powerWithin n b' x
      | .product fs =>
        if e.isInteger then do
          let rs ← fs.mapM fun f => powerWithin n f e
          productWithin n rs
        else pure (.power (.product fs) e)
      | b => pure (.power b e)
end

/-! ## Functions -/

/-- The absolute value. A coefficient is taken out, and what stands beside it is looked at again. -/
def absWithin : Nat → Expr → Budgeted Expr
  | 0, _ => spent
  | n + 1, x =>
    match x with
    | num q => pure (num q.abs)
    | x =>
      if isNonnegative x then pure x
      else
        match x.splitCoefficient with
        | (_, none) => pure (.unary .abs x)
        | (c, some rest) =>
          if c = 1 then pure (.unary .abs x)
          else do
            let r ← absWithin n rest
            productWithin n [num c.abs, r]

/-- A function of one operand. -/
def unaryWithin (n : Nat) (f : UnaryFunction) (x : Expr) : Budgeted Expr :=
  match f with
  | .neg => productWithin n [num (-1), x]
  | .recip => powerWithin n x (num (-1))
  | .abs => absWithin n x
  | .sqrt => powerWithin n x (num (1 / 2))
  | .square => powerWithin n x (num 2)
  | .ln => known (log x naturalBase)

/-- A tabulated value with its sign, as it is written before it is brought to canonical form. -/
def SpecialAngle.Value.written (v : SpecialAngle.Value) : Expr :=
  if v.negative then .product [num (-1), v.magnitude] else v.magnitude

section Angles

variable (simplify : Expr → Budgeted Expr) (n : Nat)

/-- The special angle in turns at which the table has the value `x`, or its negative. -/
def findAngleWithin (x : Expr) : List (Rat × Expr) → Budgeted (Option Rat)
  | [] => pure none
  | (t, v) :: table => do
    let v ← simplify v
    if v.same x then pure (some t)
    else do
      let w ← productWithin n [num (-1), v]
      if w.same x then pure (some (-t)) else findAngleWithin x table

/-- Sine, cosine or tangent of the angle `x`. -/
def ofAngleWithin (f : AngleFunction) (x : Expr) (name : Option String) : Budgeted Expr := do
  let m ← known (measureOf name)
  let turn ← simplify (fullTurn m)
  let inverse ← powerWithin n turn (num (-1))
  match ← productWithin n [x, inverse] with
  | num t =>
    match ← known (specialValue? f t) with
    | some v => simplify v.written
    | none => pure (.angle f x name)
  | _ => pure (.angle f x name)

/-- The special angle in turns whose sine, cosine or tangent is `x`. -/
def specialAngleWithin (f : AngleFunction) (x : Expr) : Budgeted (Option Rat) :=
  match f with
  | .atan => findAngleWithin simplify n x SpecialAngle.tangents
  | .acos => (Option.map (1 / 4 - ·)) <$> findAngleWithin simplify n x SpecialAngle.sines
  | _ => findAngleWithin simplify n x SpecialAngle.sines

/-- The angle whose sine, cosine or tangent is `x`. -/
def toAngleWithin (f : AngleFunction) (x : Expr) (name : Option String) : Budgeted Expr := do
  known (checkCosine f x)
  match ← specialAngleWithin simplify n f x with
  | some t => do
    let m ← known (measureOf name)
    let turn ← simplify (fullTurn m)
    productWithin n [num t, turn]
  | none => pure (.angle f x name)

/-- A function to or from angles. -/
def angleWithin (f : AngleFunction) (x : Expr) (name : Option String) : Budgeted Expr :=
  if f.isInverse then toAngleWithin simplify n f x name else ofAngleWithin simplify n f x name

end Angles

/-! ## The canonical form -/

/-- The canonical form of an expression. -/
def simplifyWithin : Nat → Expr → Budgeted Expr
  | 0, _ => spent
  | n + 1, e =>
    match e with
    | num q => pure (num q)
    | .const c => pure (.const c)
    | .var x => pure (.var x)
    | .sum ts => do
      let rs ← ts.mapM fun t => simplifyWithin n t
      sumWithin n rs
    | .product fs => do
      let rs ← fs.mapM fun f => simplifyWithin n f
      productWithin n rs
    | .power b e => do
      let b ← simplifyWithin n b
      let e ← simplifyWithin n e
      powerWithin n b e
    | .unary f x => do
      let x ← simplifyWithin n x
      unaryWithin n f x
    | .log x b => do
      let x ← simplifyWithin n x
      let b ← simplifyWithin n b
      known (log x b)
    | .mod x d => do
      let x ← simplifyWithin n x
      let d ← simplifyWithin n d
      known (mod x d)
    | .angle f x m => do
      let x ← simplifyWithin n x
      angleWithin (fun e => simplifyWithin n e) n f x m

end StackAlgebra.Canonical
