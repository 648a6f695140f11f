import StackAlgebra.Proofs.NormalForm.RationalPower
import StackAlgebra.Proofs.NormalForm.MergedPower
import Mathlib.Data.Rat.Lemmas
import Mathlib.Tactic.Ring

/-!
# Powers of one number

The exponents of which a number has rational powers can be added and subtracted
(`IsRationalPower.add`, `HasRoot.of_add`). A power of a number that is evaluated leaves a rational
and a root (`exists_leaves`). Of two powers of one number that are evaluated first and multiplied
then, there is left what is left of the power to the sum of the exponents, if both are rational or
if nothing but whole powers was taken off (`rationalPower_add`).
-/

namespace StackAlgebra.Canonical

open StackAlgebra.Expr (num nonNumbers coefficientOf)

variable {b d e v w q x y z f g : Rat}

/-! ## Sums of exponents -/

/-- The root that the exponent asks for is rational. -/
def HasRoot (b e : Rat) : Prop :=
  ∃ s : Rat, s ^ e.den = |b|

/-- No even root of a negative number is asked for. -/
def IsReal (b e : Rat) : Prop :=
  ¬ (b < 0 ∧ e.den % 2 = 0)

/-- The exponents of which a number has real powers can be added. -/
theorem IsReal.add (hd : IsReal b d) (he : IsReal b e) : IsReal b (d + e) := by
  rintro ⟨hneg, heven⟩
  have hodd := (odd_of_isReal hd hneg).mul (odd_of_isReal he hneg)
  exact Nat.not_even_iff_odd.mpr (Odd.of_dvd_nat hodd (Rat.add_den_dvd d e))
    (Nat.even_iff.mpr heven)

/-- The opposite exponent. -/
theorem IsReal.neg (h : IsReal b e) : IsReal b (-e) := by
  rwa [IsReal, Rat.neg_den]

/-- The denominator of a multiple. -/
theorem IsReal.mul_int (h : IsReal b e) (k : ℤ) : IsReal b (e * k) := by
  rintro ⟨hneg, heven⟩
  have hdvd : (e * k).den ∣ e.den := by
    have := Rat.mul_den_dvd e k
    simpa using this
  exact Nat.not_even_iff_odd.mpr (Odd.of_dvd_nat (odd_of_isReal h hneg) hdvd)
    (Nat.even_iff.mpr heven)

/-- Rational powers of a number multiply where the exponents are added. -/
theorem IsRationalPower.add (hb : b ≠ 0) (hd : IsReal b d) (he : IsReal b e)
    (hv : IsRationalPower b d v) (hw : IsRationalPower b e w) :
    IsRationalPower b (d + e) (v * w) := by
  refine ⟨?_, fun hpos => mul_pos (hv.pos hpos) (hw.pos hpos)⟩
  -- Both sides are compared as powers to the product of the denominators.
  have hnum : (d + e).num * (d.den * e.den : ℕ) =
      (d + e).den * (d.num * e.den + e.num * d.den) := by
    rw [mul_comm ((d + e).den : ℤ), ← Rat.add_num_den', Nat.cast_mul, mul_assoc]
  have hpow : ((v * w) ^ (d + e).den) ^ (d.den * e.den) = (b ^ (d + e).num) ^ (d.den * e.den) := by
    calc ((v * w) ^ (d + e).den) ^ (d.den * e.den)
        = ((v ^ d.den) ^ e.den * (w ^ e.den) ^ d.den) ^ (d + e).den := by
          rw [pow_right_comm, mul_pow v w, pow_mul v, pow_mul' w]
      _ = (b ^ (d.num * e.den + e.num * d.den)) ^ (d + e).den := by
          rw [hv.pow_eq, hw.pow_eq, zpow_add₀ hb, zpow_mul, zpow_mul, zpow_natCast, zpow_natCast]
      _ = (b ^ (d + e).num) ^ (d.den * e.den) := by
          rw [← zpow_natCast, ← zpow_natCast, ← zpow_mul, ← zpow_mul, hnum, mul_comm]
  rcases lt_or_gt_of_ne hb with hneg | hpos
  · have hodd : Odd (d.den * e.den) := (odd_of_isReal hd hneg).mul (odd_of_isReal he hneg)
    exact hodd.strictMono_pow.injective hpow
  · refine (pow_left_inj₀ ?_ (zpow_pos hpos _).le (by positivity)).mp hpow
    exact (pow_pos (mul_pos (hv.pos hpos) (hw.pos hpos)) _).le

/-- The power to the opposite exponent is the inverse. -/
theorem IsRationalPower.neg (h : IsRationalPower b e v) : IsRationalPower b (-e) v⁻¹ := by
  refine ⟨?_, fun hpos => inv_pos.mpr (h.pos hpos)⟩
  rw [Rat.neg_den, Rat.neg_num, zpow_neg, inv_pow, h.pow_eq]

/-- A number has a rational power exactly if the root that is asked for is rational. -/
theorem hasRoot_iff (hb : b ≠ 0) (hreal : IsReal b e) :
    HasRoot b e ↔ ∃ v, IsRationalPower b e v := by
  constructor
  · intro h
    obtain ⟨v, -, hv⟩ := rationalPower_of_pow_eq hb hreal h
    exact ⟨v, hv⟩
  · rintro ⟨v, hv⟩
    exact exists_root_of_pow_eq hb hv.pow_eq

/-- Of two exponents and their sum a rational power to two of them makes that to the third
rational. -/
theorem HasRoot.of_add (hb : b ≠ 0) (hd : IsReal b d) (he : IsReal b e) (h : HasRoot b d)
    (hsum : HasRoot b (d + e)) : HasRoot b e := by
  obtain ⟨v, hv⟩ := (hasRoot_iff hb hd).mp h
  obtain ⟨w, hw⟩ := (hasRoot_iff hb (hd.add he)).mp hsum
  rw [hasRoot_iff hb he]
  refine ⟨w * v⁻¹, ?_⟩
  have hdiff := hw.add hb (hd.add he) hd.neg hv.neg
  rwa [show d + e + -d = e by ring] at hdiff

/-! ## What is left of powers -/

/-- A number has every real power. -/
theorem exists_rationalPower (h : IsReal q z) : ∃ m, rationalPower q z = .ok m := by
  cases hm : rationalPower q z with
  | ok m => exact ⟨m, rfl⟩
  | error x => exact absurd ((rationalPower_eq_error_iff x).mp hm).2 h

/-- The root with the exponent `f`, and nothing where it is zero. -/
def rootOf (q f : Rat) : List Expr :=
  if f = 0 then [] else [.power (num q) (num f)]

/-- The power of `q` to `z` is `v` times the root with the exponent `f`. -/
structure LeavesRoot (q z f v : Rat) : Prop where
  power : ∃ m, rationalPower q z = .ok m ∧ m.IsStable ∧ coefficientOf m.factors = v ∧
    nonNumbers m.factors = rootOf q f
  ne_zero : v ≠ 0
  settled : f = 0 ∨ (Expr.power (num q) (num f)).IsSettled

/-- A root of a number is stable. -/
theorem isStable_root (h : (Expr.power (num q) (num f)).IsSettled) :
    (Expr.power (num q) (num f)).IsStable :=
  ⟨h, .intro trivial (.pair (Expr.isStable_num q).distinct (Expr.isStable_num f).distinct), by simp⟩

/-- The whole part of a whole exponent. -/
theorem floor_of_den_eq_one (h : z.den = 1) : z.floor = z.num ∧ z - z.floor = 0 := by
  have hint : z = (z.num : ℤ) := ((Rat.den_eq_one_iff z).mp h).symm
  have hfloor : z.floor = z.num := by
    rw [hint]
    exact Rat.floor_intCast _
  refine ⟨hfloor, ?_⟩
  rw [hfloor, ← hint, sub_self]

/-- A real power leaves its value where that is rational, and else the root that lacks the whole
part. -/
theorem exists_leaves (h0 : q ≠ 0) (hreal : IsReal q z) : ∃ f v, LeavesRoot q z f v ∧
    (HasRoot q z → f = 0 ∧ IsRationalPower q z v) ∧
    (z.den = 1 ∨ ¬HasRoot q z → f = z - z.floor ∧ v = q ^ z.floor) := by
  by_cases hroot : HasRoot q z
  · -- A rational value leaves no root. For a whole exponent it is a whole power.
    obtain ⟨v, hv, hval⟩ := rationalPower_of_pow_eq h0 hreal hroot
    have hv0 : v ≠ 0 := by
      rintro rfl
      have hpow := hval.pow_eq
      rw [zero_pow z.den_ne_zero] at hpow
      exact zpow_ne_zero _ h0 hpow.symm
    refine ⟨0, v, ⟨⟨num v, hv, Expr.isStable_num v, mul_one v, rfl⟩, hv0, .inl rfl⟩,
      fun _ => ⟨rfl, hval⟩, fun h => ?_⟩
    have hden := h.resolve_right (not_not_intro hroot)
    obtain ⟨hfloor, hpart⟩ := floor_of_den_eq_one hden
    have hpow := hval.pow_eq
    rw [hden, pow_one] at hpow
    exact ⟨hpart.symm, by rw [hfloor, hpow]⟩
  · -- Otherwise the whole part of the exponent is taken off.
    obtain ⟨m, hm⟩ := exists_rationalPower hreal
    rcases rationalPower_eq_ok_cases h0 hm with ⟨s, hs, -⟩ | hs
    · exact absurd ⟨|s|, by rw [← abs_pow, hs]⟩ hroot
    have hmonic := Expr.isMonic_of_not_isProduct hs rfl rfl rfl
    have hne : z - z.floor ≠ 0 := by
      have hpart := (Expr.settled_power_iff.mp hs).1.part q _ rfl rfl
      exact hpart.1.ne'
    have hv0 : q ^ z.floor ≠ 0 := zpow_ne_zero _ h0
    refine ⟨z - z.floor, q ^ z.floor,
      ⟨⟨_, rationalPower_of_root hs, ?_, (factors_term hmonic _).1, ?_⟩, hv0, .inr hs⟩,
      fun h => absurd h hroot, fun _ => ⟨rfl, rfl⟩⟩
    · exact ⟨hmonic.settled_term hv0,
        ignoresCoefficients_hasDistinctBases.term (isStable_root hs).distinct _,
        ignoresCoefficients_isMeasured.term (isStable_root hs).measured _⟩
    · rw [(factors_term hmonic _).2, rootOf, if_neg hne]
      rfl

/-- Rational powers of a number with added exponents are the products of the powers, also after each
of them was evaluated: both are rational, or nothing but whole powers was taken off. -/
theorem rationalPower_add (h0 : q ≠ 0) (hx : IsReal q x) (hy : IsReal q y)
    (hf : LeavesRoot q x f v) (hg : LeavesRoot q y g w)
    (h : (f = 0 ∧ IsRationalPower q x v) ∧ (g = 0 ∧ IsRationalPower q y w) ∨
      (f = x - x.floor ∧ v = q ^ x.floor) ∧ (g = y - y.floor ∧ w = q ^ y.floor)) :
    ∃ m n, rationalPower q (f + g) = .ok m ∧ rationalPower q (x + y) = .ok n ∧
      coefficientOf n.factors = v * w * coefficientOf m.factors ∧
      nonNumbers n.factors = nonNumbers m.factors := by
  rcases h with ⟨⟨rfl, hv⟩, rfl, hw⟩ | ⟨⟨rfl, rfl⟩, rfl, rfl⟩
  · have hone : rationalPower q (0 + 0) = .ok (num 1) := by simp [rationalPower]
    refine ⟨num 1, num (v * w), hone,
      (rationalPower_eq_num_iff h0).mpr ⟨hx.add hy, hv.add h0 hx hy hw⟩, ?_, rfl⟩
    show v * w * 1 = v * w * (1 * 1)
    ring
  · -- What is left of the exponents adds up, and the power is shifted by the whole parts.
    have hreal : IsReal q (x - x.floor + (y - y.floor)) := by
      have hsub : ∀ {z : Rat}, IsReal q z → IsReal q (z - z.floor) := fun {z} hz => by
        rwa [IsReal, Rat.sub_intCast_den]
      exact (hsub hx).add (hsub hy)
    obtain ⟨m, hm⟩ := exists_rationalPower hreal
    obtain ⟨n, hn, hc, hr⟩ := rationalPower_shift h0 hm (x.floor + y.floor)
    rw [show x - x.floor + (y - y.floor) + (x.floor + y.floor : ℤ) = x + y by push_cast; ring] at hn
    exact ⟨m, n, hm, hn, by rw [hc, zpow_add₀ h0], hr⟩

end StackAlgebra.Canonical
