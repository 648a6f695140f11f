import StackAlgebra.Proofs.Display.Reader
import StackAlgebra.Proofs.NormalForm.Factor

/-!
# Fractions are put together again

The fraction that a settled expression is shown as has this expression as its value
(`value_quotientOf`). The factors come back in another order than the expression has them, the
coefficient in two parts, and what is below the bar as reciprocals. None of that matters, since the
factors of a settled product are sorted, and the reciprocal of the reciprocal of a factor is that
factor (`isBelow_inverted`).
-/

namespace StackAlgebra.Display

open List (Perm)
open StackAlgebra.Expr (num coefficientOf nonNumbers)
open StackAlgebra.Canonical (term collapse)

variable {R : Radix} {e f b : Expr} {fs gs : List Expr} {c : Rat}

/-! ## Factors below a bar -/

/-- What stands below a bar for a factor of a settled product. -/
structure IsBelow (g : Expr) : Prop where
  settled : g.IsSettled
  not_isNum : g.isNum = false
  not_isProduct : g.isProduct = false
  not_isInverse : g.isInverse = false

/-- The reciprocal of a settled factor with a negative exponent can stand below a bar, and the
factor is the reciprocal of it. -/
theorem isBelow_inverted (h : f.IsSettled) (hi : f.isInverse = true) :
    IsBelow f.inverted ∧ reciprocal f.inverted = f := by
  obtain ⟨b, q, rfl, hq⟩ : ∃ b q, f = .power b (num q) ∧ q < 0 := by
    unfold Expr.isInverse at hi
    split at hi
    · exact ⟨_, _, rfl, of_decide_eq_true hi⟩
    · cases hi
  obtain ⟨hn, hb, -⟩ := Expr.settled_power_iff.mp h
  by_cases h1 : q = -1
  · -- The base of an integer power is neither a number nor a product.
    subst h1
    have hint : (num (-1)).isInteger = true := by decide
    have hinv : (Expr.power b (num (-1))).inverted = b := by simp [Expr.inverted]
    have hnum := hn.not_isNum_of_isInteger hint
    have hpower := hn.not_isPower
    rw [hinv]
    refine ⟨⟨hb, hnum, hn.not_isProduct_of_isInteger hint, ?_⟩, ?_⟩
    · cases b with
      | power b' a => cases hpower
      | _ => rfl
    · cases b with
      | power b' a => cases hpower
      | _ => rfl
  · have hinv : (Expr.power b (num q)).inverted = .power b (num (-q)) := by simp [Expr.inverted, h1]
    rw [hinv]
    have hnum : b.isNum = false := by
      -- The exponents of numbers are positive.
      by_contra hb
      obtain ⟨p, rfl⟩ := Expr.exists_eq_num (Bool.not_eq_false _ ▸ hb)
      exact absurd (hn.part p q rfl rfl).1 (not_lt.mpr hq.le)
    have hzero : b.isZero = false := by
      cases b with
      | num p => cases hnum
      | _ => rfl
    refine ⟨⟨Expr.settled_power_iff.mpr ⟨?_, hb, Expr.settled_num _⟩, rfl, rfl, ?_⟩, ?_⟩
    · have hint : (num (-q)).isInteger = (num q).isInteger := by
        simp only [Expr.isInteger, Rat.neg_den]
      constructor
      · simp [Expr.isZero, hq.ne]
      · simpa [Expr.isOne, neg_eq_iff_eq_neg] using h1
      · exact hn.base_ne_one
      · exact hn.not_isPower
      · exact fun _ => hnum
      · exact fun hi => hn.not_isProduct_of_isInteger (hint ▸ hi)
      · exact fun h => absurd h (by simp [hzero])
      all_goals
        rintro p x rfl
        cases hnum
    · simp [Expr.isInverse, hq.le]
    · simp [reciprocal]

/-- The factors below the bar of a settled expression. -/
theorem isBelow_of_mem (hfs : ∀ f ∈ fs, f.IsSettled) {g : Expr}
    (hg : g ∈ (below fs).map Expr.inverted) :
    IsBelow g := by
  obtain ⟨f, hf, rfl⟩ := List.mem_map.mp hg
  obtain ⟨hmem, hi⟩ := List.mem_filter.mp hf
  exact (isBelow_inverted (hfs f hmem) hi).1

/-- The reciprocals of what stands below the bar are the factors that it stands for. -/
theorem map_reciprocal_inverted (hfs : ∀ f ∈ fs, f.IsSettled) :
    ((below fs).map Expr.inverted).map reciprocal = below fs := by
  rw [List.map_map]
  refine (List.map_congr_left fun f hf => ?_).trans (List.map_id _)
  obtain ⟨hmem, hi⟩ := List.mem_filter.mp hf
  exact (isBelow_inverted (hfs f hmem) hi).2

/-! ## The value of a fraction -/

/-- The sign of a rational times its magnitude, as a fraction. -/
theorem sign_mul_div (c : Rat) : (if c < 0 then -1 else 1) * (c.num.natAbs : Rat) / c.den = c := by
  rw [mul_div_assoc, ← Radix.abs_eq_natAbs_div]
  split_ifs with h
  · rw [abs_of_neg h, neg_one_mul, neg_neg]
  · rw [abs_of_nonneg (not_lt.mp h), one_mul]

/-- Above a bar stand a natural number and the factors that were meant to. -/
theorem mem_top_scaled {top bottom : List Expr} (h : f ∈ (Quotient.scaled c top bottom).top) :
    (∃ n : Nat, f = num n) ∨ f ∈ top := by
  simp only [Quotient.scaled] at h
  split_ifs at h
  · exact (List.mem_cons.mp h).imp_left fun h => ⟨_, h⟩
  · exact .inr h

/-- Below a bar stand a natural number and the factors that were meant to. -/
theorem mem_bottom_scaled {top bottom : List Expr} (h : f ∈ (Quotient.scaled c top bottom).bottom) :
    (∃ n : Nat, f = num n) ∨ f ∈ bottom := by
  simp only [Quotient.scaled] at h
  split_ifs at h
  · exact (List.mem_cons.mp h).imp_left fun h => ⟨_, h⟩
  · exact .inr h

/-- The numbers and the other factors above and below the bar of a fraction. -/
theorem parts_scaled {top bottom : List Expr} (ht : ∀ f ∈ top, f.isNum = false)
    (hb : ∀ f ∈ bottom, f.isNum = false) :
    coefficientOf (Quotient.scaled c top bottom).top = c.num.natAbs ∧
      nonNumbers (Quotient.scaled c top bottom).top = top ∧
      coefficientOf (Quotient.scaled c top bottom).bottom = c.den ∧
      nonNumbers (Quotient.scaled c top bottom).bottom = bottom := by
  have hcons (q : Rat) {fs : List Expr} (h : ∀ f ∈ fs, f.isNum = false) :
      coefficientOf (num q :: fs) = q ∧ nonNumbers (num q :: fs) = fs := by
    rw [coefficientOf, Expr.coefficientOf_of_not_isNum h, mul_one, nonNumbers,
      List.filter_cons_of_neg (by simp [Expr.isNum])]
    exact ⟨rfl, Expr.nonNumbers_of_not_isNum h⟩
  have htop : coefficientOf (Quotient.scaled c top bottom).top = c.num.natAbs ∧
      nonNumbers (Quotient.scaled c top bottom).top = top := by
    simp only [Quotient.scaled]
    split_ifs with h
    · exact hcons _ ht
    · push Not at h
      rw [Expr.coefficientOf_of_not_isNum ht, h.1, Nat.cast_one]
      exact ⟨rfl, Expr.nonNumbers_of_not_isNum ht⟩
  have hbottom : coefficientOf (Quotient.scaled c top bottom).bottom = c.den ∧
      nonNumbers (Quotient.scaled c top bottom).bottom = bottom := by
    simp only [Quotient.scaled]
    split_ifs with h
    · exact hcons _ hb
    · push Not at h
      rw [Expr.coefficientOf_of_not_isNum hb, h, Nat.cast_one]
      exact ⟨rfl, Expr.nonNumbers_of_not_isNum hb⟩
  exact ⟨htop.1, htop.2, hbottom.1, hbottom.2⟩

/-- Factors are above the bar or below it. -/
theorem above_append_below (h : ∀ f ∈ fs, f.isNum = false) : Perm (above fs ++ below fs) fs := by
  have habove : above fs = fs.filter fun f => !f.isInverse := by
    refine List.filter_congr fun f hf => ?_
    rw [h f hf, Bool.not_false, Bool.true_and]
  rw [habove]
  exact List.perm_append_comm.trans (List.filter_append_perm _ _)

/-- What stands beside a coefficient is its factors together. -/
theorem collapse_factors {r : Expr} (h : r.IsMonic) :
    collapse (if c = 1 then r.factors else num c :: r.factors) = term c r := by
  rw [term]
  split_ifs with hc
  · cases r with
    | product fs =>
      obtain ⟨hr, -, -⟩ := Expr.settled_product_iff.mp h.settled
      rw [Expr.factors, Canonical.collapse_of_two_le hr.two_le, Expr.sort_of_pairwise hr.ordered]
    | _ => rfl
  · have hpos := List.length_pos_of_ne_nil h.settled.factors_ne_nil
    rw [Canonical.collapse_of_two_le (by rw [List.length_cons]; omega)]

/-- A coefficient and factors in another order are put together to the same expression. -/
theorem collapse_perm_of_settled (c : Rat) (h : Perm fs gs) (hs : ∀ f ∈ fs, f.IsSettled) :
    collapse (if c = 1 then fs else num c :: fs) =
      collapse (if c = 1 then gs else num c :: gs) := by
  refine Canonical.collapse_perm ?_ ?_
  · split_ifs
    · exact hs
    · exact List.forall_mem_cons.mpr ⟨Expr.settled_num c, hs⟩
  · split_ifs
    · exact h
    · exact h.cons _

/-- A coefficient and the factors beside it come back from the fraction that they are shown as. -/
theorem value_scaled {r : Expr} (h : r.IsMonic) (c : Rat) :
    (Quotient.scaled c (above r.factors) ((below r.factors).map Expr.inverted)).value =
      term c r := by
  have hfs := h.settled.factors
  have habove : ∀ f ∈ above r.factors, f.isNum = false :=
    fun f hf => h.not_isNum f (List.mem_filter.mp hf).1
  have hbelow : ∀ g ∈ (below r.factors).map Expr.inverted, g.isNum = false := fun g hg =>
    (isBelow_of_mem hfs hg).not_isNum
  obtain ⟨h1, h2, h3, h4⟩ := parts_scaled (c := c) habove hbelow
  have hc :
      (if (Quotient.scaled c (above r.factors) ((below r.factors).map Expr.inverted)).negative then
      (-1 : Rat) else 1) * c.num.natAbs / c.den = c := by
    simp only [Quotient.scaled, decide_eq_true_eq]
    exact sign_mul_div c
  simp only [Quotient.value, h1, h2, h3, h4, hc, map_reciprocal_inverted hfs]
  rw [← collapse_factors h]
  exact (collapse_perm_of_settled c (above_append_below h.not_isNum).symm hfs).symm

/-- A coefficient without factors is a number. -/
theorem collapse_coefficient (c : Rat) : collapse (if c = 1 then [] else [num c]) = num c := by
  split_ifs with h
  · rw [h]
    rfl
  · rfl

/-- What stands above no bar by itself is what is shown. -/
theorem value_single (x : Expr) : Quotient.value ⟨false, [x], []⟩ = x := by
  cases x with
  | num q => simp [Quotient.value, coefficientOf, nonNumbers, Expr.isNum, collapse_coefficient]
  | _ => simp [Quotient.value, coefficientOf, nonNumbers, Expr.isNum, collapse]

/-- A number comes back from the fraction that it is shown as. -/
theorem value_num (q : Rat) : (quotientOf R (num q)).value = num q := by
  rw [quotientOf]
  split_ifs with h
  · have hc : (if q < 0 then (-1 : Rat) else 1) * |q| = q := by
      split_ifs with hq
      · rw [abs_of_neg hq, neg_one_mul, neg_neg]
      · rw [abs_of_nonneg (not_lt.mp hq), one_mul]
    simp [Quotient.value, coefficientOf, nonNumbers, Expr.isNum, hc, collapse_coefficient]
  · have hc := sign_mul_div q
    simp only [Quotient.value, coefficientOf, nonNumbers, Expr.isNum, decide_eq_true_eq,
      mul_one, hc, List.filter_cons, List.filter_nil, Bool.not_true, Bool.false_eq_true, if_false,
      List.map_nil, List.append_nil, collapse_coefficient]

/-- A settled expression comes back from the fraction that it is shown as. -/
theorem value_quotientOf (h : e.IsSettled) (hs : e.isSum = false) : (quotientOf R e).value = e := by
  cases hn : e.isNum with
  | true =>
    obtain ⟨q, rfl⟩ := Expr.exists_eq_num hn
    exact value_num q
  | false =>
    obtain ⟨c, r, -, hr, rfl⟩ := h.exists_term hn hs
    rw [quotientOf_term hr, value_scaled hr]

/-! ## Several factors below a bar -/

/-- The order of the factors below the bar does not matter. -/
theorem value_perm {negative : Bool} {top bottom bottom' : List Expr} (h : Perm bottom bottom')
    (hs : ∀ f ∈ nonNumbers top ++ (nonNumbers bottom).map reciprocal, f.IsSettled) :
    Quotient.value ⟨negative, top, bottom⟩ = Quotient.value ⟨negative, top, bottom'⟩ := by
  have hperm := ((h.filter fun e => !e.isNum).map reciprocal).append_left (nonNumbers top)
  simp only [Quotient.value, Expr.coefficientOf_perm h]
  exact collapse_perm_of_settled _ hperm hs

/-- Several factors below a bar make a product of their own. -/
theorem value_group {top bottom : List Expr} (hb : ∀ g ∈ bottom, g.isNum = false)
    (h2 : 2 ≤ (Quotient.scaled c top bottom).bottom.length) :
    Quotient.value ⟨false, (Quotient.scaled c top bottom).bottom, []⟩ =
      .product (Expr.sort (Quotient.scaled c top bottom).bottom) := by
  have hden : ((c.den : Nat) : Rat) = 1 ↔ c.den = 1 := by norm_cast
  rw [← Canonical.collapse_of_two_le h2]
  have hnone : ∀ f ∈ ([] : List Expr), f.isNum = false := by simp
  obtain ⟨-, -, h3, h4⟩ := parts_scaled (c := c) hnone hb
  have hbottom : (Quotient.scaled c top bottom).bottom = (Quotient.scaled c [] bottom).bottom := rfl
  have hnil : nonNumbers [] = [] := rfl
  simp only [hbottom, Quotient.value, h3, h4, coefficientOf, Bool.false_eq_true, if_false, one_mul,
    div_one, hden, hnil, List.map_nil, List.append_nil]
  simp only [Quotient.scaled, ite_not]

end StackAlgebra.Display
