import StackAlgebra.Canonical.Simplify
import StackAlgebra.Proofs.NormalForm.NumberPower
import Mathlib.Algebra.Order.Ring.Abs
import Mathlib.Data.Int.GCD
import Mathlib.Data.Sign.Basic

/-!
# Rational powers fold exactly where they can

A power of a number folds if the root that its exponent asks for is rational. Only the root of the
number itself is looked for, not that of its power. That is enough: numerator and denominator of an
exponent have no common factor, so that a number is a power itself if one of its powers is
(`exists_pow_eq_of_zpow`). What comes of a power is then told by whether it has a rational value
(`rationalPower_eq_num_iff`, `simplify_rational_power`).
-/

namespace StackAlgebra

/-- The number zero is the only expression that is seen to be zero. -/
theorem Expr.isZero_iff {x : Expr} : x.isZero = true ↔ x = num 0 := by
  cases x <;> simp [Expr.isZero]

/-- The number one is the only expression that is seen to be one. -/
theorem Expr.isOne_iff {x : Expr} : x.isOne = true ↔ x = num 1 := by
  cases x <;> simp [Expr.isOne]

namespace Canonical

open StackAlgebra.Expr (num)

variable {b e v : Rat}

/-! ## Rational values -/

/-- The number `v` is the power of `b` to `e`; that of a positive number is positive. -/
structure IsRationalPower (b e v : Rat) : Prop where
  pow_eq : v ^ e.den = b ^ e.num
  pos : 0 < b → 0 < v

/-- A rational is a power if a power of it is one whose exponent has no factor in common with it. -/
theorem exists_pow_eq_of_zpow {p : ℤ} {q : ℕ} (hb : b ≠ 0) (hpq : p.natAbs.Coprime q)
    (hv : v ^ q = b ^ p) : ∃ s : Rat, s ^ q = b := by
  have hbezout : p * Int.gcdA p q + q * Int.gcdB p q = 1 := by
    rw [← Int.gcd_eq_gcd_ab]
    exact_mod_cast hpq
  -- Exponent and denominator combine to one, and powers of `v` and `b` to a root of `b` in the same
  -- way.
  refine ⟨v ^ Int.gcdA p q * b ^ Int.gcdB p q, ?_⟩
  calc (v ^ Int.gcdA p q * b ^ Int.gcdB p q) ^ q
      = (v ^ q) ^ Int.gcdA p q * b ^ (q * Int.gcdB p q) := by
        simp only [← zpow_natCast, mul_zpow, ← zpow_mul, mul_comm]
    _ = b ^ (p * Int.gcdA p q + q * Int.gcdB p q) := by rw [hv, ← zpow_mul, ← zpow_add₀ hb]
    _ = b := by rw [hbezout, zpow_one]

/-- A number has a rational root if a power of it that asks for this root is rational. -/
theorem exists_root_of_pow_eq (hb : b ≠ 0) (hv : v ^ e.den = b ^ e.num) :
    ∃ s : Rat, s ^ e.den = |b| := by
  obtain ⟨s, hs⟩ := exists_pow_eq_of_zpow hb e.reduced hv
  exact ⟨|s|, by rw [← abs_pow, hs]⟩

/-- The root of a number, with the sign of the number. -/
theorem signed_root_pow {s : Rat} {q : ℕ} (hb : b ≠ 0) (hreal : ¬ (b < 0 ∧ q % 2 = 0))
    (hs : s ^ q = |b|) : (if 0 < b then s else -s) ^ q = b := by
  rcases lt_or_gt_of_ne hb with hneg | hpos
  · rw [if_neg hneg.not_gt, (odd_of_isReal hreal hneg).neg_pow, hs, abs_of_neg hneg, neg_neg]
  · rw [if_pos hpos, hs, abs_of_pos hpos]

/-- A number has one rational power at most. -/
theorem IsRationalPower.unique {w : Rat} (hb : b ≠ 0) (hreal : ¬ (b < 0 ∧ e.den % 2 = 0))
    (hv : IsRationalPower b e v) (hw : IsRationalPower b e w) : v = w := by
  have heq : v ^ e.den = w ^ e.den := hv.pow_eq.trans hw.pow_eq.symm
  rcases lt_or_gt_of_ne hb with hneg | hpos
  · exact (odd_of_isReal hreal hneg).strictMono_pow.injective heq
  · exact (pow_left_inj₀ (hv.pos hpos).le (hw.pos hpos).le e.den_ne_zero).mp heq

/-- The power of a negative number has the sign of the power with the numerator of its exponent. -/
theorem IsRationalPower.sign_eq (h : IsRationalPower b e v) (hb : b < 0)
    (hreal : ¬ (b < 0 ∧ e.den % 2 = 0)) : SignType.sign v = SignType.sign (b ^ e.num) := by
  have hodd : Odd e.den := odd_of_isReal hreal hb
  rw [← h.pow_eq]
  rcases lt_trichotomy v 0 with hneg | rfl | hpos
  · rw [sign_neg hneg, sign_neg (hodd.pow_neg hneg)]
  · rw [zero_pow e.den_ne_zero]
  · rw [sign_pos hpos, sign_pos (pow_pos hpos _)]

/-- A power of a negative number is negative exactly if its exponent is odd. -/
theorem zpow_neg_iff_odd (hb : b < 0) {k : ℤ} : b ^ k < 0 ↔ Odd k := by
  rcases Int.even_or_odd k with heven | hodd
  · exact iff_of_false (heven.zpow_nonneg b).not_gt (Int.not_odd_iff_even.mpr heven)
  · exact iff_of_true (hodd.zpow_neg hb) hodd

/-- A rational power of a negative number is negative exactly if the numerator of its exponent is
odd. -/
theorem IsRationalPower.neg_iff_odd (h : IsRationalPower b e v) (hb : b < 0)
    (hreal : ¬ (b < 0 ∧ e.den % 2 = 0)) : v < 0 ↔ Odd e.num := by
  rw [← sign_eq_neg_one_iff, h.sign_eq hb hreal, sign_eq_neg_one_iff, zpow_neg_iff_odd hb]

/-! ## Powers of numbers -/

/-- A power whose root is rational folds to its value. -/
theorem rationalPower_of_pow_eq (hb : b ≠ 0) (hreal : ¬ (b < 0 ∧ e.den % 2 = 0))
    (hroot : ∃ s : Rat, s ^ e.den = |b|) :
    ∃ v, rationalPower b e = .ok (num v) ∧ IsRationalPower b e v := by
  by_cases hden : e.den = 1
  · refine ⟨b ^ e.num, by rw [rationalPower, if_pos hden], ?_, fun hpos => zpow_pos hpos _⟩
    rw [hden, pow_one]
  cases hs : Root.rational? e.den b.abs with
  | none =>
    rw [rat_abs_eq, Root.rational?_eq_none_iff e.den_ne_zero (abs_nonneg b)] at hs
    exact absurd hroot hs
  | some s =>
    have hspec := Root.rational?_eq_some (rat_abs_eq b ▸ abs_nonneg b) hs
    rw [rat_abs_eq] at hspec
    obtain ⟨hs0, hpow⟩ := hspec
    have hne : s ≠ 0 := by
      rintro rfl
      rw [zero_pow e.den_ne_zero] at hpow
      exact hb (abs_eq_zero.mp hpow.symm)
    refine ⟨(if 0 < b then s else -s) ^ e.num, ?_, ?_, fun hpos => ?_⟩
    · rw [rationalPower, if_neg hden, if_neg hreal, hs]
    · rw [← zpow_natCast, zpow_comm, zpow_natCast, signed_root_pow hb hreal hpow]
    · rw [if_pos hpos]
      exact zpow_pos (lt_of_le_of_ne hs0 hne.symm) _

/-- A power fails exactly where an even root of a negative number is asked for. -/
theorem rationalPower_eq_error_iff (x : Error) :
    rationalPower b e = .error x ↔ x = .complexResult ∧ b < 0 ∧ e.den % 2 = 0 := by
  by_cases hreal : b < 0 ∧ e.den % 2 = 0
  · rw [rationalPower, if_neg (by omega), if_pos hreal]
    simp [hreal, eq_comm]
  · have hok : ∃ r, rationalPower b e = .ok r := by
      rw [rationalPower, if_neg hreal]
      split
      · exact ⟨_, rfl⟩
      · split <;> exact ⟨_, rfl⟩
    obtain ⟨r, hr⟩ := hok
    simp [hr, hreal]

/-- A power is a number exactly if it has a rational value, and it is that value. -/
theorem rationalPower_eq_num_iff (hb : b ≠ 0) : rationalPower b e = .ok (num v) ↔
    ¬ (b < 0 ∧ e.den % 2 = 0) ∧ IsRationalPower b e v := by
  by_cases hreal : b < 0 ∧ e.den % 2 = 0
  · rw [(rationalPower_eq_error_iff _).mpr ⟨rfl, hreal⟩]
    simp [hreal]
  by_cases hroot : ∃ s : Rat, s ^ e.den = |b|
  · obtain ⟨w, hw, hval⟩ := rationalPower_of_pow_eq hb hreal hroot
    constructor
    · intro h
      obtain rfl : w = v := Expr.num.inj (Except.ok.inj (hw.symm.trans h))
      exact ⟨hreal, hval⟩
    · rintro ⟨-, hv⟩
      rw [hw, hval.unique hb hreal hv]
  · -- Without a rational root the power is a root, and it has no rational value either.
    have hden : e.den ≠ 1 := fun h1 => hroot ⟨|b|, by rw [h1, pow_one]⟩
    have hnone : Root.rational? e.den b.abs = none := by
      rwa [rat_abs_eq, Root.rational?_eq_none_iff e.den_ne_zero (abs_nonneg b)]
    rw [rationalPower_of_no_root hden hreal hnone]
    constructor
    · intro h
      split_ifs at h <;> cases h
    · rintro ⟨-, hv⟩
      exact absurd (exists_root_of_pow_eq hb hv.pow_eq) hroot

/-- A number other than zero to any rational exponent. -/
theorem power_num_rational (hb : b ≠ 0) (e : Rat) :
    power (num b) (num e) = rationalPower b e := by
  by_cases h1 : b = 1
  · -- One is its own root, whatever is asked for.
    subst h1
    have hval : IsRationalPower 1 e 1 := ⟨by rw [one_pow, one_zpow], fun h => h⟩
    rw [(rationalPower_eq_num_iff one_ne_zero).mpr ⟨by norm_num, hval⟩, power_eq]
    split_ifs with h0 hz
    · cases hz
    all_goals rfl
  · exact power_num_num hb h1 e

/-- The power of `b` to the part of `e` beside its whole part, times `b` to the whole part. -/
def scaledRoot (b e : Rat) : Expr :=
  if e.floor = 0 then .power (num b) (num (e - e.floor))
  else .product [num (b ^ e.floor), .power (num b) (num (e - e.floor))]

/-- A power without a rational value is a root, times a rational where the exponent has a whole
part. -/
theorem rationalPower_eq_scaledRoot (hb : b ≠ 0) (hreal : ¬ (b < 0 ∧ e.den % 2 = 0))
    (hval : ¬ ∃ v : Rat, v ^ e.den = b ^ e.num) : rationalPower b e = .ok (scaledRoot b e) := by
  have hden : e.den ≠ 1 := fun h1 => hval ⟨b ^ e.num, by rw [h1, pow_one]⟩
  have hnone : Root.rational? e.den b.abs = none := by
    rw [rat_abs_eq, Root.rational?_eq_none_iff e.den_ne_zero (abs_nonneg b)]
    intro hroot
    obtain ⟨v, -, hv⟩ := rationalPower_of_pow_eq hb hreal hroot
    exact hval ⟨v, hv.pow_eq⟩
  have hsort : Expr.sort [num (b ^ e.floor), .power (num b) (num (e - e.floor))] =
      [num (b ^ e.floor), .power (num b) (num (e - e.floor))] :=
    Expr.sort_of_pairwise (by simpa using (Expr.num_lt _ rfl).le)
  rw [rationalPower_of_no_root hden hreal hnone, hsort, scaledRoot]

/-- What a rational power of a number other than zero comes to. It is undefined exactly for even
roots of negative numbers. It is a number exactly if it has a rational value, and then it is this
value. Otherwise it is a root between zero and one of the number, times a whole power of the
number. -/
theorem simplify_rational_power (hb : b ≠ 0) (e : Rat) :
    (∀ x, (Expr.power (num b) (num e)).simplify = .error x ↔
      x = .complexResult ∧ b < 0 ∧ e.den % 2 = 0) ∧
    (¬ (b < 0 ∧ e.den % 2 = 0) →
      ((∃ v, (Expr.power (num b) (num e)).simplify = .ok (num v)) ↔
        ∃ v : Rat, v ^ e.den = b ^ e.num) ∧
      (∀ v, (Expr.power (num b) (num e)).simplify = .ok (num v) → v ^ e.den = b ^ e.num ∧
        (0 < b → 0 < v) ∧ (b < 0 → SignType.sign v = SignType.sign (b ^ e.num))) ∧
      ((¬ ∃ v : Rat, v ^ e.den = b ^ e.num) → 0 < e - e.floor ∧ e - e.floor < 1 ∧
        (Expr.power (num b) (num e)).simplify = .ok (scaledRoot b e))) := by
  have heq : (Expr.power (num b) (num e)).simplify = rationalPower b e := power_num_rational hb e
  rw [heq]
  refine ⟨rationalPower_eq_error_iff, fun hreal => ⟨⟨?_, ?_⟩, ?_, fun hval => ?_⟩⟩
  · rintro ⟨v, hv⟩
    exact ⟨v, ((rationalPower_eq_num_iff hb).mp hv).2.pow_eq⟩
  · rintro ⟨v, hv⟩
    obtain ⟨w, hw, -⟩ := rationalPower_of_pow_eq hb hreal (exists_root_of_pow_eq hb hv)
    exact ⟨w, hw⟩
  · intro v hv
    obtain ⟨-, hval⟩ := (rationalPower_eq_num_iff hb).mp hv
    exact ⟨hval.pow_eq, hval.pos, fun hneg => hval.sign_eq hneg hreal⟩
  · have hden : e.den ≠ 1 := fun h1 => hval ⟨b ^ e.num, by rw [h1, pow_one]⟩
    obtain ⟨h0, h1, -⟩ := part_spec hden
    exact ⟨h0, h1, rationalPower_eq_scaledRoot hb hreal hval⟩

/-- The power of minus eight to five thirds is minus thirty-two. -/
theorem simplify_rational_power_minus_eight : (-8 : Rat) ≠ 0 ∧
    ∃ v, (Expr.power (num (-8)) (num (5 / 3))).simplify = .ok (num v) := by
  have h8 : (-8 : Rat) ≠ 0 := by norm_num
  have hreal : ¬ ((-8 : Rat) < 0 ∧ (5 / 3 : Rat).den % 2 = 0) := by decide +kernel
  exact ⟨h8, ((simplify_rational_power h8 (5 / 3)).2 hreal).1.mpr ⟨-32, by decide +kernel⟩⟩

end Canonical
end StackAlgebra
