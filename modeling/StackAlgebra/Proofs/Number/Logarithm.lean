import StackAlgebra.Canonical.Function
import StackAlgebra.Proofs.Number.Root
import Mathlib.Algebra.Order.Ring.Abs
import Mathlib.Algebra.Order.Field.Basic
import Mathlib.Tactic.NormNum

/-!
# Exact logarithms

Machine numbers only propose the exponent `k` of an exact logarithm to the base `b`; whether
`b ^ k = x` is decided by exact arithmetic. Before a power is worked out, `Logarithm.confirm?` gives
up every `k` for which `|k| * (bits b - 1)` is more than `bits x`. Nothing is lost by that
(`bits_zpow`): a power of a reduced fraction is reduced, so that its numerator and denominator are
powers of those of `b`, exchanged if the exponent is negative, and a power of a whole number has at
least as many digits as the exponent times the digits of the number but one (`bitLength_pow`).
-/

namespace StackAlgebra

namespace Root

/-- A positive number has a binary digit. -/
theorem bitLength_pos {n : ℕ} (h : n ≠ 0) : 0 < bitLength n :=
  lt_bitLength_iff.mpr (by rw [pow_zero]; omega)

/-- A power has more binary digits than the exponent times the digits of what is raised but one. -/
theorem bitLength_pow {n : ℕ} (h : n ≠ 0) (k : ℕ) : k * (bitLength n - 1) < bitLength (n ^ k) := by
  have hpos := bitLength_pos h
  have hlow : 2 ^ (bitLength n - 1) ≤ n := lt_bitLength_iff.mp (by omega)
  refine lt_bitLength_iff.mpr ?_
  calc 2 ^ (k * (bitLength n - 1)) = (2 ^ (bitLength n - 1)) ^ k := by rw [Nat.mul_comm, pow_mul]
    _ ≤ n ^ k := Nat.pow_le_pow_left hlow k

end Root

namespace Logarithm

open Root (bitLength bitLength_pos bitLength_pow)

/-- A rational has at least one digit, since its denominator has. -/
theorem bits_pos (q : ℚ) : 0 < bits q :=
  lt_of_lt_of_le (bitLength_pos q.den_nz) (le_max_right _ _)

/-- A rational and its reciprocal are of one size. -/
theorem bits_inv {q : ℚ} (h : q ≠ 0) : bits q⁻¹ = bits q := by
  have hnum : q⁻¹.num.natAbs = q.den := by
    rw [Rat.num_inv, Int.natAbs_mul, Int.natAbs_sign_of_ne_zero (Rat.num_ne_zero.mpr h), one_mul,
      Int.natAbs_natCast]
  rw [bits, bits, hnum, Rat.den_inv_of_ne_zero h, max_comm]

/-- The size of a power with a natural exponent: numerator and denominator are raised on their
own. -/
theorem bits_pow {q : ℚ} (h : q ≠ 0) (k : ℕ) : k * (bits q - 1) < bits (q ^ k) := by
  have hnum := bitLength_pow (Int.natAbs_ne_zero.mpr (Rat.num_ne_zero.mpr h)) k
  have hden := bitLength_pow q.den_nz k
  unfold bits
  rw [Rat.num_pow, Rat.den_pow, Int.natAbs_pow]
  -- The larger of the two makes the bound.
  rcases le_total (bitLength q.den) (bitLength q.num.natAbs) with hle | hle
  · rw [max_eq_left hle]
    exact lt_of_lt_of_le hnum (le_max_left _ _)
  · rw [max_eq_right hle]
    exact lt_of_lt_of_le hden (le_max_right _ _)

/-- A power is larger than the exponent's magnitude times one digit less than what is raised. -/
theorem bits_zpow (q : ℚ) (k : ℤ) : k.natAbs * (bits q - 1) < bits (q ^ k) := by
  rcases eq_or_ne q 0 with rfl | h
  · -- Zero has one digit, and takes nothing from the power.
    have hzero : bits (0 : ℚ) = 1 := rfl
    rw [hzero, Nat.sub_self, Nat.mul_zero]
    exact bits_pos _
  · rcases Int.natAbs_eq k with hk | hk
    · rw [hk, Int.natAbs_natCast, zpow_natCast]
      exact bits_pow h _
    · rw [hk, Int.natAbs_neg, Int.natAbs_natCast, zpow_neg, zpow_natCast,
        bits_inv (pow_ne_zero _ h)]
      exact bits_pow h _

/-- The guard lets every right candidate through, so that only the power decides. -/
theorem confirm?_eq (x b : ℚ) (k : ℤ) : confirm? x b k = if b ^ k = x then some k else none := by
  unfold confirm?
  by_cases h : b ^ k = x
  · have hlt := bits_zpow b k
    rw [h] at hlt
    rw [if_neg (by omega), if_pos h]
  · rw [if_neg h]
    split_ifs <;> rfl

/-- The size guard of the exact logarithm never discards a true answer. So, whatever candidate
machine numbers propose, it is answered exactly if it is right, and the logarithm of numbers folds
to it then and only then; where they propose none, their division has failed. -/
theorem exact_logarithm :
    (∀ (x b : ℚ) (k : ℤ), b ^ k = x → |k| * ((bits b : ℤ) - 1) ≤ bits x) ∧
    (∀ (x b : ℚ) (k : ℤ), confirm? x b k = if b ^ k = x then some k else none) ∧
    ∀ x b : ℚ, Canonical.numberLog x b = match candidate? x b with
      | some k => .ok (if b ^ k = x then .num k else .log (.num x) (.num b))
      | none => .error .machineDivision := by
  refine ⟨?_, confirm?_eq, fun x b => ?_⟩
  · rintro x b k rfl
    have hlt := bits_zpow b k
    have hpos := bits_pos b
    have hcast : ((bits b - 1 : ℕ) : ℤ) = (bits b : ℤ) - 1 := by omega
    rw [Int.abs_eq_natAbs, ← hcast, ← Nat.cast_mul]
    exact Int.ofNat_le.mpr hlt.le
  · unfold Canonical.numberLog
    cases candidate? x b with
    | none => rfl
    | some k =>
      simp only [confirm?_eq]
      split_ifs <;> rfl

/-- The logarithm of 243/32 to the base 2/3 is -5. -/
theorem exact_logarithm_two_thirds :
    (2 / 3 : ℚ) ^ (-5 : ℤ) = 243 / 32 ∧ |(-5 : ℤ)| * ((bits (2 / 3) : ℤ) - 1) ≤ bits (243 / 32) ∧
      confirm? (243 / 32) (2 / 3) (-5) = some (-5) := by
  have hpow : (2 / 3 : ℚ) ^ (-5 : ℤ) = 243 / 32 := by norm_num
  obtain ⟨hguard, hconfirm, -⟩ := exact_logarithm
  exact ⟨hpow, hguard _ _ _ hpow, (hconfirm _ _ _).trans (if_pos hpow)⟩

end Logarithm
end StackAlgebra
