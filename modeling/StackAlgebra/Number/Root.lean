/-!
# Integer and rational roots

`Root.floor k n` is the largest `r` with `r ^ k ≤ n`, by Newton's iteration from above on natural
numbers. `Root.rational? k q` is the rational whose `k`-th power is `q`, where there is one: a
reduced fraction is a `k`-th power only if its numerator and denominator are.
-/

namespace StackAlgebra.Root

attribute [local instance (high)] instPowNat

/-- The number of binary digits of `n`; zero has none. -/
def bitLength (n : Nat) : Nat :=
  if n = 0 then 0 else n.log2 + 1

/-- Newton's iteration for the `k`-th root of `n`: step down from `x` while that makes it
smaller. -/
def descend (k n x : Nat) : Nat :=
  let y := ((k - 1) * x + n / x ^ (k - 1)) / k
  if y < x then descend k n y else x
termination_by x

/-- A power of two whose `k`-th power is at least `2 ^ bits`. -/
def start (k bits : Nat) : Nat :=
  2 ^ ((bits + k - 1) / k)

/-- The floor of the `k`-th root of `n`. -/
def floor (k n : Nat) : Nat :=
  if n < 2 then n
  else if bitLength n ≤ k then 1
  else descend k n (start k (bitLength n))

/-- `r ^ k = n`. A power of zero or one is known without working it out, however large `k` is. -/
def isRoot (k r n : Nat) : Bool :=
  match r with
  | 0 => n = if k = 0 then 1 else 0
  | 1 => n = 1
  | r => r ^ k = n

/-- The test of a root is exact. -/
theorem isRoot_iff {k r n : Nat} : isRoot k r n = true ↔ r ^ k = n := by
  unfold isRoot
  split
  · rcases Nat.eq_zero_or_pos k with rfl | hk
    · simp [eq_comm]
    · simp [Nat.zero_pow hk, Nat.pos_iff_ne_zero.mp hk, eq_comm]
  · simp [eq_comm]
  · simp

/-- The exact `k`-th root of a non-negative rational, if it is rational. -/
def rational? (k : Nat) (q : Rat) : Option Rat :=
  let n := floor k q.num.natAbs
  let d := floor k q.den
  if isRoot k n q.num.natAbs && isRoot k d q.den then some ((n : Rat) / (d : Rat)) else none

end StackAlgebra.Root
