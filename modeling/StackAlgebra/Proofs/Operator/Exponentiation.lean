import StackAlgebra.Proofs.NormalForm.ProductBase
import StackAlgebra.Proofs.Operator.Multiplication

/-!
# Powers of canonical expressions

Whole powers of a canonical expression multiply to the power to the sum of the exponents exactly if
they do not clash, where no power of a product is expanded (`evaluate_pow_add`). Plain products that
both powers expand are expanded by a common divisor of the exponents, and the law is that for what
comes of this. A product that one power expands and the other does not breaks the law.
-/

namespace StackAlgebra.Operator

open StackAlgebra.Expr (num var sum product power)
open StackAlgebra.Canonical (IsInsideNoOther)

variable {a b p q r : Expr} {m n : ℤ} {measure : String}

/-- The powers of `a` to `m`, to `n` and to the sum of both are `p`, `q` and `r`. -/
structure RaisesTo (measure : String) (a : Expr) (m n : ℤ) (p q r : Expr) : Prop where
  first : pow.evaluate measure [a, num m] = .ok p
  second : pow.evaluate measure [a, num n] = .ok q
  sum : pow.evaluate measure [a, num (m + n : ℤ)] = .ok r

/-- A whole power of a stable expression. -/
theorem evaluate_pow (ha : a.IsStable) (k : ℤ) :
    pow.evaluate measure [a, num k] = Canonical.power a (num k) :=
  Expr.simplify_power ha.simplify rfl

/-- The product of stable expressions. -/
theorem evaluate_mul_of_isStable (ha : a.IsStable) (hb : b.IsStable) :
    mul.evaluate measure [a, b] = Canonical.product [a, b] :=
  evaluate_mul_of_simplify ha.simplify hb.simplify

/-- Powers in whose products the bases are different are stable. -/
theorem isStable_pow (ha : a.IsStable) {k : ℤ} (h : Canonical.power a (num k) = .ok p)
    (hd : p.HasDistinctBases) :
    p.IsStable :=
  ⟨Canonical.settled_power ha.settled (Expr.settled_num _) h, hd,
    Canonical.isMeasured_power ha.measured (Expr.isStable_num _).measured h⟩

/-- Exactly one of two powers expands a power of the product. -/
def ExpandsOne (y : Rat) (m n : ℤ) : Prop :=
  (m ≠ 0 ∧ (y * m).den = 1 ∧ (y * n).den ≠ 1) ∨ (n ≠ 0 ∧ (y * n).den = 1 ∧ (y * m).den ≠ 1)

/-- Powers of which one alone expands a product do not multiply to the power to the sum of the
exponents. -/
theorem product_ne_of_expandsOne (ha : a.IsStable) (h0 : a ≠ num 0) {fs : List Expr} {y : Rat}
    (hf : power (product fs) (num y) ∈ a.factors) (hother : IsInsideNoOther (product fs) a)
    (hone : ExpandsOne y m n) (hp : Canonical.power a (num m) = .ok p)
    (hq : Canonical.power a (num n) = .ok q) (hr : Canonical.power a (num (m + n : ℤ)) = .ok r)
    (hr0 : r ≠ num 0) : Canonical.product [p, q] ≠ .ok r := by
  rcases hone with ⟨hm0, hm, hn⟩ | ⟨hn0, hn, hm⟩
  · exact Canonical.product_ne_of_expanded ha h0 hf rfl hother hm0 hm hn hp hq hr hr0
  · intro hprod
    rw [add_comm] at hr
    refine Canonical.product_ne_of_expanded ha h0 hf rfl hother hn0 hn hm hq hp hr hr0 ?_
    have hsettled {k : ℤ} {e : Expr} (h : Canonical.power a (num k) = .ok e) :=
      Canonical.settled_power ha.settled (Expr.settled_num _) h
    exact Canonical.product_perm (by simpa using ⟨hsettled hp, hsettled hq⟩) (.swap _ _ _) hprod

/-- The exponents of equal bases add: whole powers of a canonical expression other than zero, in
whose products the bases are different, multiply to the power to the sum of the exponents

* exactly if they do not clash, where no power of a product is expanded;
* if they do not clash, as far as no product is left with two factors of one base, where the power
  to the sum alone expands;
* exactly if the powers of what a common divisor expands do not clash, where it expands plain
  products;
* not, where one power expands a product that is inside no other base and the other does not. -/
theorem evaluate_pow_add (ha : a.IsCanonical) (hd : a.HasDistinctBases) (h0 : a ≠ num 0)
    (h : RaisesTo measure a m n p q r) :
    (¬a.ExpandsAt m → ¬a.ExpandsAt n → ¬a.ExpandsAt (m + n) →
      (mul.evaluate measure [p, q] = .ok r ↔ ¬a.PowersClash m n)) ∧
    (¬a.ExpandsAt m → ¬a.ExpandsAt n → ¬a.PowersClash m n → r.HasDistinctBases →
      ∃ s, mul.evaluate measure [p, q] = .ok s ∧ (s.HasDistinctBases → s = r)) ∧
    (∀ (d i j : ℤ) (b : Expr), d ≠ 0 → m = d * i → n = d * j → a.ExpandsPlainly d →
      pow.evaluate measure [a, num d] = .ok b → b.isSum = false →
      ¬b.ExpandsAt i → ¬b.ExpandsAt j → ¬b.ExpandsAt (i + j) →
      (mul.evaluate measure [p, q] = .ok r ↔ ¬b.PowersClash i j)) ∧
    (∀ (fs : List Expr) (y : Rat), power (product fs) (num y) ∈ a.factors →
      IsInsideNoOther (product fs) a →
      ExpandsOne y m n → p.HasDistinctBases → q.HasDistinctBases → r ≠ num 0 →
      mul.evaluate measure [p, q] ≠ .ok r) := by
  have hs := ha.isStable hd
  obtain ⟨hp, hq, hr⟩ := h
  rw [evaluate_pow hs] at hp hq hr
  have hiff : ¬a.ExpandsAt m → ¬a.ExpandsAt n → ¬a.ExpandsAt (m + n) →
      (mul.evaluate measure [p, q] = .ok r ↔ ¬a.PowersClash m n) := fun hem hen hes => by
    rw [evaluate_mul_of_isStable (Canonical.isStable_power hs h0 hem hp)
      (Canonical.isStable_power hs h0 hen hq)]
    exact Canonical.product_powers_iff hs h0 hem hen hes hp hq hr
  refine ⟨hiff, fun hem hen hclash hrd => ?_, ?_, ?_⟩
  · by_cases hes : a.ExpandsAt (m + n)
    · have hm : m ≠ 0 := by
        rintro rfl
        exact hen (by rwa [zero_add] at hes)
      have hn : n ≠ 0 := by
        rintro rfl
        exact hem (by rwa [add_zero] at hes)
      rw [evaluate_mul_of_isStable (Canonical.isStable_power hs h0 hem hp)
        (Canonical.isStable_power hs h0 hen hq)]
      exact (Canonical.product_powers hs h0 hm hn hem hen hclash hp hq hr hrd).1
    · exact ⟨r, (hiff hem hen hes).mpr hclash, fun _ => rfl⟩
  · rintro d i j b hd0 rfl rfl hplain hb hsum hei hej hes
    rw [evaluate_pow hs] at hb
    obtain ⟨hbs, hb0, hpi⟩ := Canonical.power_power hs h0 hd0 hplain hb hsum hei
    have hqj := (Canonical.power_power hs h0 hd0 hplain hb hsum hej).2.2
    rw [evaluate_mul_of_isStable (Canonical.isStable_power hbs hb0 hei (hpi.trans hp))
      (Canonical.isStable_power hbs hb0 hej (hqj.trans hq))]
    exact Canonical.product_powers_expanded_iff hs h0 hd0 hplain hb hsum hei hej hes hp hq hr
  · intro fs y hf hother hone hpd hqd hr0
    rw [evaluate_mul_of_isStable (isStable_pow hs hp hpd) (isStable_pow hs hq hqd)]
    exact product_ne_of_expandsOne hs h0 hf hother hone hp hq hr hr0

/-! ## Powers for which exponents add, and others -/

/-- A whole power of a sum other than the zeroth and the first stands. -/
theorem power_sum_var {k : Rat} (h0 : k ≠ 0) (h1 : k ≠ 1) :
    Canonical.power (sum [var "x", var "y"]) (num k) =
      .ok (power (sum [var "x", var "y"]) (num k)) :=
  Canonical.Raised.eq_ok
    (.stays (by simpa [Expr.isZero] using h0) (by simpa [Expr.isOne] using h1) rfl (by simp)
    (fun h => by cases h) rfl)

/-- Powers of a sum of variables do not clash. -/
theorem not_powersClash_sum_var (hm : m ≠ 1) (hn : n ≠ 1) (hm0 : m ≠ 0) (hn0 : n ≠ 0) :
    ¬(sum [var "x", var "y"]).PowersClash m n := by
  -- A multiple of the sum is a sum, and no power.
  have hspread : ∀ k : ℤ, k ≠ 0 → k ≠ 1 → ¬(sum [var "x", var "y"]).SpreadsAt k := by
    rintro k hk0 hk1 ⟨c, ts, hc0, -, ⟨f, hf, hb⟩, hpow⟩
    obtain rfl := List.mem_singleton.mp hf
    rw [power_sum_var (Int.cast_ne_zero.mpr hk0) (by exact_mod_cast hk1), ← Expr.sum.inj hb] at hpow
    obtain ⟨us, hus, -⟩ := Canonical.exists_multiple_sum isStable_sum_var hc0
    cases Except.ok.inj (hpow.trans hus)
  rintro (⟨e, hf, -⟩ | ⟨q, x, hf, -⟩ | ⟨-, -, hs | hs⟩)
  · cases List.mem_singleton.mp hf
  · cases List.mem_singleton.mp hf
  · exact hspread m hm0 hm hs
  · exact hspread n hn0 hn hs

/-- Powers of a sum of variables. -/
theorem raisesTo_sum_var :
    RaisesTo "rad" (sum [var "x", var "y"]) 2 (-3) (power (sum [var "x", var "y"]) (num 2))
    (power (sum [var "x", var "y"]) (num (-3))) (power (sum [var "x", var "y"]) (num (-1))) := by
  have hs := isStable_sum_var
  constructor
  · exact (evaluate_pow hs 2).trans (power_sum_var (by norm_num) (by norm_num))
  · exact (evaluate_pow hs (-3)).trans (power_sum_var (by norm_num) (by norm_num))
  · exact (evaluate_pow hs (-1)).trans (power_sum_var (by norm_num) (by norm_num))

/-- A whole power of the square root is the product of the powers of the variables. -/
theorem evaluate_pow_root_var {k i : ℤ}
    (hk : k ≠ 0) (hi : (1 / 2 : Rat) * k = i) (h0 : (i : Rat) ≠ 0) (h1 : (i : Rat) ≠ 1) :
    pow.evaluate measure [power (product [var "x", var "y"]) (num (1 / 2)), num k] =
      Canonical.product [power (var "x") (num i), power (var "y") (num i)] := by
  have hzero : (num (i : Rat)).isZero = false := by simpa [Expr.isZero] using h0
  have hone : (num (i : Rat)).isOne = false := by simpa [Expr.isOne] using h1
  have hvar (v : String) : Canonical.power (var v) (num i) = .ok (power (var v) (num i)) ∧
      (power (var v) (num i)).IsStable := by
    have hs := Canonical.settled_power_of_stays (Expr.isStable_var v).settled
      (Expr.settled_num i) hzero hone rfl (by simp) (by simp [Expr.isProduct])
    have hdistinct :=
      Expr.Everywhere.pair (Expr.isStable_var v).distinct (Expr.isStable_num i).distinct
    exact ⟨Canonical.power_fixed hs, hs, Expr.Everywhere.iff_children.mpr ⟨trivial, hdistinct⟩,
      by simp⟩
  rw [evaluate_pow isFactor_root_var.stable, Canonical.power_expanded isFactor_root_var hk hi]
  refine Canonical.power_eq_product hzero hone (by simp [Expr.isInteger])
    (.cons (hvar "x").1 (.cons (hvar "y").1 .nil)) ?_
  simpa using ⟨(hvar "x").2, (hvar "y").2⟩

/-- Powers of the square root of the product of two variables. -/
theorem raisesTo_root_var : RaisesTo "rad" (power (product [var "x", var "y"]) (num (1 / 2))) 4 (-6)
    (product [power (var "x") (num 2), power (var "y") (num 2)])
    (product [power (var "x") (num (-3)), power (var "y") (num (-3))])
    (product [power (var "x") (num (-1)), power (var "y") (num (-1))]) := by
  constructor
  · rw [evaluate_pow_root_var (i := 2) (by decide) (by norm_num) (by norm_num) (by norm_num),
      Canonical.product_eq]
    with_unfolding_all rfl
  · rw [evaluate_pow_root_var (i := -3) (by decide) (by norm_num) (by norm_num) (by norm_num),
      Canonical.product_eq]
    with_unfolding_all rfl
  · rw [evaluate_pow_root_var (i := -1) (by decide) (by norm_num) (by norm_num) (by norm_num),
      Canonical.product_eq]
    with_unfolding_all rfl

/-- Powers of the product of two variables expand nothing and do not clash. -/
theorem not_powersClash_product_var : (∀ k, ¬(product [var "x", var "y"]).ExpandsAt k) ∧
    ¬(product [var "x", var "y"]).PowersClash m n := by
  have hfactor : ∀ f ∈ (product [var "x", var "y"]).factors, f.isPower = false ∧
      f.base.isSum = false := by
    simp [Expr.factors, Expr.isPower, Expr.base, Expr.splitPower, Expr.isSum]
  have hspread : ∀ k, ¬(product [var "x", var "y"]).SpreadsAt k := by
    rintro k ⟨c, ts, -, -, ⟨f, hf, hb⟩, -⟩
    have hsum := (hfactor f hf).2
    rw [hb] at hsum
    cases hsum
  constructor
  · rintro k ⟨-, f, hf, fs, y, rfl, -⟩
    cases (hfactor _ hf).1
  · rintro (⟨e, hf, -⟩ | ⟨q, x, hf, -⟩ | ⟨-, -, hs | hs⟩)
    · cases (hfactor _ hf).1
    · cases (hfactor _ hf).1
    · exact hspread m hs
    · exact hspread n hs

/-- Exponents of a sum add, and so do those of the square root of a product that both powers
expand. -/
theorem evaluate_pow_add_var :
    ((sum [var "x", var "y"]).IsCanonical ∧ (sum [var "x", var "y"]).HasDistinctBases ∧
      mul.evaluate "rad"
        [power (sum [var "x", var "y"]) (num 2), power (sum [var "x", var "y"]) (num (-3))] =
          .ok (power (sum [var "x", var "y"]) (num (-1)))) ∧
    (power (product [var "x", var "y"]) (num (1 / 2))).IsCanonical ∧
      (power (product [var "x", var "y"]) (num (1 / 2))).HasDistinctBases ∧
      mul.evaluate "rad" [product [power (var "x") (num 2), power (var "y") (num 2)],
        product [power (var "x") (num (-3)), power (var "y") (num (-3))]] =
          .ok (product [power (var "x") (num (-1)), power (var "y") (num (-1))]) := by
  constructor
  · have hs := isStable_sum_var
    have hcan : (sum [var "x", var "y"]).IsCanonical := ⟨_, hs.measured, hs.simplify⟩
    have hexp : ∀ k, ¬(sum [var "x", var "y"]).ExpandsAt k := by
      rintro k ⟨-, f, hf, fs, y, rfl, -⟩
      cases List.mem_singleton.mp hf
    have hlaw :=
      (evaluate_pow_add hcan hs.distinct (by simp) raisesTo_sum_var).1 (hexp _) (hexp _) (hexp _)
    exact ⟨hcan, hs.distinct,
      hlaw.mpr (not_powersClash_sum_var (by decide) (by decide) (by decide) (by decide))⟩
  · have hs := isFactor_root_var.stable
    have hcan : (power (product [var "x", var "y"]) (num (1 / 2))).IsCanonical :=
      ⟨_, hs.measured, hs.simplify⟩
    have hplain : (power (product [var "x", var "y"]) (num (1 / 2))).ExpandsPlainly 2 := by
      intro fs y hf _
      obtain ⟨hfs, -⟩ := Expr.power.inj (List.mem_singleton.mp hf)
      obtain rfl := Expr.product.inj hfs
      constructor
      · simp [Expr.nonNumbers, Expr.isNum, Expr.base, Expr.splitPower, Expr.isProduct]
      · simp [Expr.nonNumbers, Expr.isNum]
    -- The square is the product itself.
    have hb : pow.evaluate "rad" [power (product [var "x", var "y"]) (num (1 / 2)), num (2 : ℤ)] =
        .ok (product [var "x", var "y"]) := by
      rw [evaluate_pow hs, Canonical.power_expanded isFactor_root_var (i := 1) (by decide)
        (by norm_num), Int.cast_one, Canonical.power_num_one]
    obtain ⟨hexp, hclash⟩ := not_powersClash_product_var (m := 2) (n := -3)
    have hlaw :=
      (evaluate_pow_add hcan hs.distinct (by simp) raisesTo_root_var).2.2.1 2 2 (-3) _ (by decide)
      (by norm_num) (by norm_num) hplain hb rfl (hexp _) (hexp _) (hexp _)
    exact ⟨hcan, hs.distinct, hlaw.mpr hclash⟩

/-- The square of the fourth root of four is evaluated, and not merged with the root any more. -/
theorem pow_add_fourth_root_ne :
    (power (num 4) (num (1 / 4))).IsCanonical ∧ power (num 4) (num (1 / 4)) ≠ num 0 ∧
      RaisesTo "rad" (power (num 4) (num (1 / 4))) 1 2 (power (num 4) (num (1 / 4))) (num 2)
        (power (num 4) (num (3 / 4))) ∧
      mul.evaluate "rad" [power (num 4) (num (1 / 4)), num 2] ≠
        .ok (power (num 4) (num (3 / 4))) := by
  have hpower : Canonical.power (num 4) (num (1 / 4)) = .ok (power (num 4) (num (1 / 4))) :=
    (Canonical.power_num_rational (by norm_num) _).trans (by with_unfolding_all rfl)
  have hs := Canonical.isStable_root
    (Canonical.settled_power (Expr.settled_num 4) (Expr.settled_num _) hpower)
  have hfactor : Canonical.IsFactor (power (num 4) (num (1 / 4))) := ⟨hs, rfl, rfl⟩
  refine ⟨⟨_, hs.measured, hs.simplify⟩, by simp, ?_, ?_⟩
  · constructor
    · rw [evaluate_pow hs, Int.cast_one, Canonical.power_num_one]
    · rw [evaluate_pow hs, Canonical.power_root hfactor]
      with_unfolding_all rfl
    · rw [evaluate_pow hs, Canonical.power_root hfactor]
      with_unfolding_all rfl
  · have hprod : Canonical.product [power (num 4) (num (1 / 4)), num 2] =
        .ok (product [num 2, power (num 4) (num (1 / 4))]) := by
      rw [Canonical.product_eq]
      with_unfolding_all rfl
    rw [evaluate_mul_of_isStable hs (Expr.isStable_num 2), hprod]
    simp

end StackAlgebra.Operator
