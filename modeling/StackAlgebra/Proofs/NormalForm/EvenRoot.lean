import StackAlgebra.Proofs.NormalForm.Sign

/-!
# Even roots

An even root of a number is not negative. One of a power can be: its exponent is multiplied with the
other before anything is evaluated, and an even denominator may cancel. It is the power of the inner
base to both exponents then, and negative exactly if the exponent of minus one in front of it is odd
over odd (`simplify_even_root`).
-/

namespace StackAlgebra.Canonical

open StackAlgebra.Expr (num)

variable {b : Expr} {x v : Rat}

/-- An exponent with an even denominator is neither zero nor one, nor whole. -/
theorem not_isInteger_of_even_den (hx : x.den % 2 = 0) :
    (num x).isZero = false ∧ (num x).isOne = false ∧ (num x).isInteger = false := by
  have hden : x.den ≠ 1 := by omega
  refine ⟨?_, ?_, by simpa [Expr.isInteger] using hden⟩
  · simp only [Expr.isZero, decide_eq_false_iff_not]
    rintro rfl
    exact hden rfl
  · simp only [Expr.isOne, decide_eq_false_iff_not]
    rintro rfl
    exact hden rfl

/-- An even root that is a number is the root of a number or of a power. -/
theorem isNum_or_isPower_of_even_root (hx : x.den % 2 = 0) (h : power b (num x) = .ok (num v)) :
    b.isNum = true ∨ b.isPower = true := by
  obtain ⟨hzero, hone, hint⟩ := not_isInteger_of_even_den hx
  cases raised_of_power_eq_ok h with
  | zero h0 _ _ => cases hzero.symm.trans h0
  | one _ h1 _ => cases hone.symm.trans h1
  | number _ _ q hq _ => exact .inl (hq ▸ rfl)
  | inner _ _ b' a _ hb' _ _ => exact .inr (hb' ▸ rfl)
  | factors _ _ fs rs _ hi _ _ => cases hint.symm.trans hi
  | stays _ _ _ _ _ hr => cases hr

/-- An even root of a number is its root that is not negative. -/
theorem even_root_of_num {q : Rat} (hx : x.den % 2 = 0) (h : power (num q) (num x) = .ok (num v)) :
    0 ≤ v ∧ v ^ x.den = q ^ x.num := by
  obtain ⟨hzero, hone, -⟩ := not_isInteger_of_even_den hx
  by_cases hq : q = 0
  · subst hq
    rw [power_eq, hzero, hone, if_neg Bool.false_ne_true, if_neg Bool.false_ne_true] at h
    change numberPower 0 (num x) = .ok (num v) at h
    rw [numberPower_zero] at h
    split_ifs at h
    have hnum : x.num ≠ 0 := by
      rw [Rat.num_ne_zero]
      simpa [Expr.isZero] using hzero
    rw [← Expr.num.inj (Except.ok.inj h), zero_pow x.den_ne_zero, zero_zpow _ hnum]
    exact ⟨le_rfl, rfl⟩
  · rw [power_num_rational hq] at h
    obtain ⟨hreal, hpow⟩ := (rationalPower_eq_num_iff hq).mp h
    have hpos : 0 < q := lt_of_le_of_ne (not_lt.mp fun hneg => hreal ⟨hneg, hx⟩) (Ne.symm hq)
    exact ⟨(hpow.pos hpos).le, hpow.pow_eq⟩

/-- An even root of a root of a number is the power of the number to both exponents, negative
exactly for the odd powers of negative numbers. -/
theorem even_root_of_power {c y : Rat} (hs : (Expr.power (num c) (num y)).IsSettled)
    (hx : x.den % 2 = 0) (h : power (.power (num c) (num y)) (num x) = .ok (num v)) :
    v ^ (y * x).den = c ^ (y * x).num ∧ (v < 0 ↔ c < 0 ∧ Odd (y * x).num) := by
  obtain ⟨hzero, hone, -⟩ := not_isInteger_of_even_den hx
  have hc := (base_ne_of_root hs).1
  rw [power_eq, hzero, hone, if_neg Bool.false_ne_true, if_neg Bool.false_ne_true] at h
  change product [num y, num x] >>= power (num c) = .ok (num v) at h
  rw [product_num_num] at h
  change power (num c) (num (y * x)) = .ok (num v) at h
  rw [power_num_rational hc] at h
  obtain ⟨hreal, hpow⟩ := (rationalPower_eq_num_iff hc).mp h
  refine ⟨hpow.pow_eq, ?_⟩
  rcases lt_or_gt_of_ne hc with hneg | hpos
  · rw [hpow.neg_iff_odd hneg hreal, and_iff_right hneg]
  · exact iff_of_false (hpow.pos hpos).not_gt fun hneg => hpos.not_gt hneg.1

/-- An even root that is a number. Unless it is taken of a power it is the root of a number that is
not negative. A root of a power of a number is the power of the number to both exponents. And it is
negative exactly if the exponent of minus one in front of what it is taken of is odd over odd after
it is multiplied with that of the root. -/
theorem simplify_even_root {e r : Expr} (hr : e.simplify = .ok r) (hx : x.den % 2 = 0)
    (h : (Expr.power e (num x)).simplify = .ok (num v)) :
    (r.isPower = false → ∃ q, r = num q ∧ 0 ≤ v ∧ v ^ x.den = q ^ x.num) ∧
    (∀ c y, r = .power (num c) (num y) →
      v ^ (y * x).den = c ^ (y * x).num ∧ (v < 0 ↔ c < 0 ∧ Odd (y * x).num)) ∧
    (e.IsMeasured → r.HasDistinctBases →
      (v < 0 ↔ v ≠ 0 ∧ Odd (r.signExponent * x).num ∧ Odd (r.signExponent * x).den)) := by
  have hpow : power r (num x) = .ok (num v) := by
    obtain ⟨r', hr', h⟩ := bind_eq_ok_iff.mp h
    obtain rfl := Except.ok.inj (hr.symm.trans hr')
    exact h
  refine ⟨fun hpower => ?_, ?_, fun hm hd => ?_⟩
  · have hnum := (isNum_or_isPower_of_even_root hx hpow).resolve_right (by simp [hpower])
    obtain ⟨q, rfl⟩ := Expr.exists_eq_num hnum
    exact ⟨q, rfl, even_root_of_num hx hpow⟩
  · rintro c y rfl
    exact even_root_of_power (Expr.settled_simplify hr) hx hpow
  · have hs : r.IsStable := ⟨Expr.settled_simplify hr, hd, Expr.isMeasured_simplify hm hr⟩
    by_cases hv : v = 0
    · exact iff_of_false (hv ▸ lt_irrefl _) fun h => h.1 hv
    · rw [neg_iff_of_power_eq_num hs hpow hv, and_iff_right hv]

/-- The root of order two to the third of a number to two thirds is the number, if the number is
kept under its root. -/
theorem simplify_root_two_thirds {c : Rat}
    (h : (Expr.power (num c) (num (2 / 3))).simplify = .ok (.power (num c) (num (2 / 3)))) :
    (Expr.power (.power (num c) (num (2 / 3))) (num (3 / 2))).simplify = .ok (num c) := by
  obtain ⟨hzero, hone, -⟩ := not_isInteger_of_even_den (x := 3 / 2) (by decide +kernel)
  have hproduct : product [num (2 / 3), num (3 / 2)] = .ok (num 1) := by
    rw [product_num_num]
    norm_num
  have hpower : power (.power (num c) (num (2 / 3))) (num (3 / 2)) = .ok (num c) :=
    Raised.eq_ok (.inner hzero hone (num c) (num (2 / 3)) _ rfl hproduct (power_num_one _))
  show ((Expr.power (num c) (num (2 / 3))).simplify >>= fun r => power r (num (3 / 2))) = _
  rw [h]
  exact hpower

/-- The square root of the cube of two to two thirds is two. -/
theorem simplify_even_root_two :
    (Expr.power (num 2) (num (2 / 3))).simplify = .ok (.power (num 2) (num (2 / 3))) ∧
    (3 / 2 : Rat).den % 2 = 0 ∧
    (Expr.power (.power (num 2) (num (2 / 3))) (num (3 / 2))).simplify = .ok (num 2) ∧
    (2 : Rat) ^ (2 / 3 * (3 / 2) : Rat).den = 2 ^ (2 / 3 * (3 / 2) : Rat).num := by
  have hr : (Expr.power (num 2) (num (2 / 3))).simplify = .ok (.power (num 2) (num (2 / 3))) :=
    (power_num_rational (by norm_num) _).trans (by with_unfolding_all rfl)
  have hx : (3 / 2 : Rat).den % 2 = 0 := by decide +kernel
  have h := simplify_root_two_thirds hr
  exact ⟨hr, hx, h, ((simplify_even_root hr hx h).2.1 2 (2 / 3) rfl).1⟩

/-- The square root of the cube of minus two to two thirds is minus two. -/
theorem even_root_minus_two_neg : (3 / 2 : Rat).den % 2 = 0 ∧
    (Expr.power (.power (num (-2)) (num (2 / 3))) (num (3 / 2))).simplify = .ok (num (-2)) ∧
    (-2 : Rat) < 0 := by
  have hr : (Expr.power (num (-2)) (num (2 / 3))).simplify =
      .ok (.power (num (-2)) (num (2 / 3))) :=
    (power_num_rational (by norm_num) _).trans (by with_unfolding_all rfl)
  exact ⟨by decide +kernel, simplify_root_two_thirds hr, by norm_num⟩

end StackAlgebra.Canonical
