import StackAlgebra.Proofs.Operator.Division
import StackAlgebra.Proofs.NormalForm.Expansion

/-!
# Multiplication of canonical expressions

Multiplication is associative where the product that is formed first evaluates nothing that the
third operand would have changed, or the third operand is a number (`evaluate_mul_assoc`). That is
so where no base is a number or a sum and none is expanded (`isHarmless_of_bases`), and also where
two roots of a product come to it before a third operand that does not have it
(`isHarmless_root_root`). Each of the three things that a product may evaluate too early makes a
difference: a rational distributed over a sum is no factor any more (`disagree_distributed`), and a
base whose power was evaluated is not there any more to be merged with another power of it
(`disagree_evaluated`, `disagree_expanded`).
-/

namespace StackAlgebra.Operator

open StackAlgebra.Expr (num var sum product power)
open StackAlgebra.Canonical (IsHarmless basesOf isExpanded)

variable {a b c p q r s : Expr} {measure : String}

/-- Both ways to multiply three operands have a result: with the product `p` of the first two it is
`r`, and with the product `q` of the last two it is `s`. -/
structure MultipliesBothWays (measure : String) (a b c p q r s : Expr) : Prop where
  first : mul.evaluate measure [a, b] = .ok p
  left : mul.evaluate measure [p, c] = .ok r
  last : mul.evaluate measure [b, c] = .ok q
  right : mul.evaluate measure [a, q] = .ok s

/-- The product of operands that are their own canonical forms. -/
theorem evaluate_mul_of_simplify (ha : a.simplify = .ok a) (hb : b.simplify = .ok b) :
    mul.evaluate measure [a, b] = Canonical.product [a, b] := by
  rw [evaluate_mul, Expr.simplify_product (.cons ha (.cons hb .nil))]

/-- The product of stable operands is stable if its bases are different. -/
theorem isStable_mul (ha : a.IsStable) (hb : b.IsStable) (h : Canonical.product [a, b] = .ok p)
    (hd : p.HasDistinctBases) : p.IsStable := by
  refine ⟨Canonical.settled_product ?_ h, hd, Canonical.isMeasured_product ?_ h⟩
  · simpa using ⟨ha.settled, hb.settled⟩
  · simpa using ⟨ha.measured, hb.measured⟩

/-- Multiplication of canonical expressions is associative, as far as no product has two factors of
one base, where each way begins with a harmless product or ends with a number. -/
theorem evaluate_mul_assoc (ha : a.IsCanonical) (hb : b.IsCanonical) (hc : c.IsCanonical)
    (h : MultipliesBothWays measure a b c p q r s)
    (hd : ∀ e ∈ [a, b, c, p, q, r, s], e.HasDistinctBases) (hab : c.isNum = true ∨ IsHarmless a b c)
    (hbc : a.isNum = true ∨ IsHarmless b c a) : r = s := by
  obtain ⟨hp, hr, hq, hs⟩ := h
  have hsa := ha.isStable (hd a (by simp))
  have hsb := hb.isStable (hd b (by simp))
  have hsc := hc.isStable (hd c (by simp))
  rw [evaluate_mul_of_simplify hsa.simplify hsb.simplify] at hp
  rw [evaluate_mul_of_simplify hsb.simplify hsc.simplify] at hq
  have hsp := isStable_mul hsa hsb hp (hd p (by simp))
  have hsq := isStable_mul hsb hsc hq (hd q (by simp))
  rw [evaluate_mul_of_simplify hsp.simplify hsc.simplify] at hr
  rw [evaluate_mul_of_simplify hsa.simplify hsq.simplify] at hs
  exact Canonical.product_assoc hsa hsb hsc hsp hsq hp hr hq hs (hd r (by simp))
    (hd s (by simp)) hab hbc

/-- A product is harmless if its bases are neither numbers nor sums, and none of them is
expanded. -/
theorem isHarmless_of_bases (h : ∀ β ∈ basesOf (a.factors ++ b.factors),
    β.isNum = false ∧ β.isSum = false ∧ isExpanded (a.factors ++ b.factors) β = false) :
    IsHarmless a b c where
  product ts k hmem hk := by
    refine .inl (by_contra fun hk0 => ?_)
    have hexp := (h _ hmem).2.2
    rw [Canonical.isExpanded_iff.mpr ⟨ts, rfl, k, hk, hk0⟩] at hexp
    cases hexp
  number q x hmem := by cases (h _ hmem).1
  sum q ts hmem := by
    rw [Canonical.expansion_eq_self fun β hβ => (h β hβ).2.2] at hmem
    cases (h _ hmem).2.1

/-! ## Operands for which multiplication is associative, and others -/

/-- What is its own canonical form has different bases. -/
theorem hasDistinctBases_of_simplify (h : a.simplify = .ok a) : a.HasDistinctBases :=
  (Expr.simplify_eq_self_iff (Expr.settled_simplify h)).mp h

/-- The product of factors with the coefficient one, from their powers and what these are merged
to. -/
theorem product_of_powersOf {fs ms : List Expr} {gs : List (Expr × List Expr)}
    (hc : Expr.coefficientOf (Canonical.opened fs) = 1)
    (hgs : Canonical.powersOf (Canonical.opened fs) = gs)
    (hms : List.Forall₂ (fun g m => Canonical.mergePower g = .ok m) gs ms) :
    Canonical.product fs = Canonical.multiply 1 gs ms := by
  subst hgs
  rw [Canonical.product_eq_multiply (hc.trans_ne one_ne_zero) hms, hc]

/-- Two exponents of a base are added. -/
theorem mergePower_pair {x y e m : Expr} (hsum : Canonical.inOrder (Canonical.sum [y, x]) = .ok e)
    (hm : Canonical.power b e = .ok m) : Canonical.mergePower (b, [y, x]) = .ok m := by
  rw [Canonical.mergePower_of_two_le (by simp), ← hm]
  exact congrArg (· >>= Canonical.power b) hsum

/-- Two powers of a base are merged. -/
theorem product_power_power {x y e m : Expr}
    (hsum : Canonical.inOrder (Canonical.sum [y, x]) = .ok e) (hm : Canonical.power b e = .ok m) :
    Canonical.product [power b x, power b y] =
      Canonical.multiply 1 [(b, [y, x])] [m] := by
  refine product_of_powersOf rfl ?_ (.cons (mergePower_pair hsum hm) .nil)
  show Canonical.addTo b x [(b, [y])] = _
  rw [Canonical.addTo, if_pos (Expr.same_self b)]
  rfl

/-- The square root of the product of two variables is a factor. -/
theorem isFactor_root_var :
    Canonical.IsFactor (power (product [var "x", var "y"]) (num (1 / 2))) := by
  have hb := isStable_product_var
  have hstands := Canonical.settled_power_of_stays hb.settled (Expr.settled_num (1 / 2))
    (by decide +kernel) (by decide +kernel) rfl (by simp) fun _ => by decide +kernel
  have hdistinct := Expr.Everywhere.pair hb.distinct (Expr.isStable_num (1 / 2)).distinct
  exact ⟨⟨hstands, Expr.Everywhere.iff_children.mpr ⟨trivial, hdistinct⟩, by simp⟩, rfl, rfl⟩

/-- The square root of the product of two variables. -/
def rootOfProduct : Expr :=
  power (product [var "x", var "y"]) (num (1 / 2))

/-- A half and a half are one. -/
theorem sum_half_half :
    Canonical.inOrder (Canonical.sum [num (1 / 2), num (1 / 2)]) = .ok (num 1) := by
  with_unfolding_all rfl

/-- The first power of the product is the product. -/
theorem power_product_one :
    Canonical.power (product [var "x", var "y"]) (num 1) = .ok (product [var "x", var "y"]) :=
  Canonical.Raised.eq_ok (.one rfl rfl rfl)

/-- Two exponents one of a variable make its square. -/
theorem forall₂_mergePower_square : List.Forall₂ (fun g m => Canonical.mergePower g = .ok m)
    [(var "x", [num 1, num 1]), (var "y", [num 1])] [power (var "x") (num 2), var "y"] := by
  have htwo : Canonical.inOrder (Canonical.sum [num 1, num 1]) = .ok (num 2) := by
    with_unfolding_all rfl
  have hsquare : Canonical.power (var "x") (num 2) = .ok (power (var "x") (num 2)) := by
    rw [Canonical.power_eq]
    with_unfolding_all rfl
  exact .cons (mergePower_pair htwo hsquare) (.cons rfl .nil)

/-- Two roots of the product come to it, and it is expanded. -/
theorem product_root_root :
    Canonical.product [rootOfProduct, rootOfProduct] = .ok (product [var "x", var "y"]) := by
  -- What the merged roots come to is a product, which is multiplied once more.
  have hagain : Canonical.product [product [var "x", var "y"], num (1 * 1)] =
      .ok (product [var "x", var "y"]) := by
    rw [Canonical.product_eq]
    with_unfolding_all rfl
  rw [rootOfProduct, product_power_power sum_half_half power_product_one, Canonical.multiply,
    if_pos (by decide)]
  exact hagain

/-- The first factor of the product meets another power of it. -/
theorem product_product_var : Canonical.product [product [var "x", var "y"], var "x"] =
    .ok (product [var "y", power (var "x") (num 2)]) := by
  rw [product_of_powersOf rfl (by with_unfolding_all rfl) forall₂_mergePower_square]
  with_unfolding_all rfl

/-- The root and a variable stay beside each other. -/
theorem product_root_var :
    Canonical.product [rootOfProduct, var "x"] = .ok (product [var "x", rootOfProduct]) := by
  rw [Canonical.product_eq]
  with_unfolding_all rfl

/-- Two roots that meet with a variable between them are expanded, too. -/
theorem product_root_product : Canonical.product [rootOfProduct, product [var "x", rootOfProduct]] =
    .ok (product [var "y", power (var "x") (num 2)]) := by
  have hagain : Canonical.product [product [var "x", var "y"], var "x", num (1 * 1)] =
      .ok (product [var "y", power (var "x") (num 2)]) := by
    rw [product_of_powersOf (by with_unfolding_all rfl) (by with_unfolding_all rfl)
      forall₂_mergePower_square]
    with_unfolding_all rfl
  have hms : List.Forall₂ (fun g m => Canonical.mergePower g = .ok m)
      [(product [var "x", var "y"], [num (1 / 2), num (1 / 2)]), (var "x", [num 1])]
      [product [var "x", var "y"], var "x"] :=
    .cons (mergePower_pair sum_half_half power_product_one) (.cons rfl .nil)
  rw [product_of_powersOf rfl (by with_unfolding_all rfl) hms, Canonical.multiply,
    if_pos (by decide)]
  exact hagain

/-- Two roots multiply without harm to a variable under the root: the product expands their one
base, and the variable does not have it. -/
theorem isHarmless_root_root : IsHarmless rootOfProduct rootOfProduct (var "x") := by
  have hbases : basesOf (rootOfProduct.factors ++ rootOfProduct.factors) =
      [product [var "x", var "y"]] := by
    with_unfolding_all rfl
  have htotal : Canonical.totalExponent (product [var "x", var "y"])
      (rootOfProduct.factors ++ rootOfProduct.factors) = num 1 := by
    with_unfolding_all rfl
  have hexpansion : Canonical.expansion (rootOfProduct.factors ++ rootOfProduct.factors) =
      [var "x", var "y"] := by
    have hexp : isExpanded (rootOfProduct.factors ++ rootOfProduct.factors)
        (product [var "x", var "y"]) = true :=
      Canonical.isExpanded_iff.mpr ⟨_, rfl, 1, htotal, one_ne_zero⟩
    have hfactors : rootOfProduct.factors = [rootOfProduct] := rfl
    have hmerged := Canonical.mergedPower_eq (htotal ▸ power_product_one)
    -- Both factors have the base, so that nothing stands beside what it comes to.
    rw [Canonical.expansion, hbases, List.filter_cons_of_pos hexp, List.filter_nil,
      Canonical.expandAt, List.map_singleton, hmerged]
    have hbase : rootOfProduct.base = product [var "x", var "y"] := rfl
    have hxy : (product [var "x", var "y"]).factors = [var "x", var "y"] := rfl
    simp [hfactors, hbase, hxy, Expr.same_self]
  refine ⟨fun ts k hmem _ => ?_, fun q x hmem => ?_, fun q ts hmem => ?_⟩
  · rw [hbases, List.mem_singleton] at hmem
    obtain rfl := Expr.product.inj hmem
    have hvar : basesOf (var "x").factors = [var "x"] := by with_unfolding_all rfl
    exact .inr ⟨by simp [hvar], by decide⟩
  · simp [hbases] at hmem
  · have hvars : basesOf [var "x", var "y"] = [var "x", var "y"] := by with_unfolding_all rfl
    simp [hexpansion, hvars] at hmem

/-- The root and a variable multiply without harm to another root. -/
theorem isHarmless_root_var : IsHarmless rootOfProduct (var "x") rootOfProduct := by
  have hbases : basesOf (rootOfProduct.factors ++ (var "x").factors) =
      [product [var "x", var "y"], var "x"] := by
    with_unfolding_all rfl
  refine isHarmless_of_bases ?_
  simp only [hbases, List.forall_mem_cons]
  -- The root stands alone with its exponent one half, which is no integer.
  refine ⟨⟨rfl, rfl, ?_⟩, ⟨rfl, rfl, rfl⟩, List.forall_mem_nil _⟩
  with_unfolding_all rfl

/-- Multiplication is associative for two roots of a product and one of its factors, although one
way expands the product before it meets the factor, and the other way afterwards. -/
theorem evaluate_mul_assoc_root :
    rootOfProduct.IsCanonical ∧ (var "x").IsCanonical ∧
      MultipliesBothWays "rad" rootOfProduct rootOfProduct (var "x") (product [var "x", var "y"])
        (product [var "x", rootOfProduct]) (product [var "y", power (var "x") (num 2)])
        (product [var "y", power (var "x") (num 2)]) ∧
      IsHarmless rootOfProduct rootOfProduct (var "x") ∧
      IsHarmless rootOfProduct (var "x") rootOfProduct ∧
      product [var "y", power (var "x") (num 2)] = product [var "y", power (var "x") (num 2)] := by
  have ha : rootOfProduct.simplify = .ok rootOfProduct := isFactor_root_var.stable.simplify
  have hc : (var "x").simplify = .ok (var "x") := rfl
  have hp := isStable_product_var.simplify
  have hq : (product [var "x", rootOfProduct]).simplify =
      .ok (product [var "x", rootOfProduct]) := by
    rw [Expr.simplify_product (.cons hc (.cons ha .nil)), Canonical.product_eq]
    with_unfolding_all rfl
  have hsquare : (power (var "x") (num 2)).simplify = .ok (power (var "x") (num 2)) := by
    rw [Expr.simplify_power hc rfl, Canonical.power_eq]
    with_unfolding_all rfl
  have hr : (product [var "y", power (var "x") (num 2)]).simplify =
      .ok (product [var "y", power (var "x") (num 2)]) := by
    rw [Expr.simplify_product (.cons rfl (.cons hsquare .nil)), Canonical.product_eq]
    with_unfolding_all rfl
  have hways : MultipliesBothWays "rad" rootOfProduct rootOfProduct (var "x")
      (product [var "x", var "y"])
      (product [var "x", rootOfProduct]) (product [var "y", power (var "x") (num 2)])
      (product [var "y", power (var "x") (num 2)]) :=
    { first := (evaluate_mul_of_simplify ha ha).trans product_root_root
      left := (evaluate_mul_of_simplify hp hc).trans product_product_var
      last := (evaluate_mul_of_simplify ha hc).trans product_root_var
      right := (evaluate_mul_of_simplify ha hq).trans product_root_product }
  have hd : ∀ e ∈ [rootOfProduct, rootOfProduct, var "x", product [var "x", var "y"],
      product [var "x", rootOfProduct], product [var "y", power (var "x") (num 2)],
      product [var "y", power (var "x") (num 2)]], e.HasDistinctBases := by
    simp only [List.forall_mem_cons]
    exact ⟨hasDistinctBases_of_simplify ha, hasDistinctBases_of_simplify ha,
      hasDistinctBases_of_simplify hc, hasDistinctBases_of_simplify hp, hasDistinctBases_of_simplify
      hq, hasDistinctBases_of_simplify hr, hasDistinctBases_of_simplify hr, List.forall_mem_nil _⟩
  have hca : rootOfProduct.IsCanonical := ⟨rootOfProduct, by simp [rootOfProduct], ha⟩
  have hcc : (var "x").IsCanonical := ⟨var "x", by simp, hc⟩
  exact ⟨hca, hcc, hways, isHarmless_root_root, isHarmless_root_var,
    evaluate_mul_assoc hca hca hcc hways hd (.inr isHarmless_root_root) (.inr isHarmless_root_var)⟩

/-- Three canonical operands for which the two ways to multiply have different results. -/
def Disagree (a b c : Expr) : Prop :=
  a.IsCanonical ∧ b.IsCanonical ∧ c.IsCanonical ∧
    ∃ p q r s, MultipliesBothWays "rad" a b c p q r s ∧ r.same s = false

/-- The ways to multiply operands that are their own canonical forms, product by product. -/
theorem disagree_of_products (hm : ∀ e ∈ [a, b, c], e.IsMeasured)
    (hself : ∀ e ∈ [a, b, c, p, q], e.simplify = .ok e) (hp : Canonical.product [a, b] = .ok p)
    (hr : Canonical.product [p, c] = .ok r) (hq : Canonical.product [b, c] = .ok q)
    (hs : Canonical.product [a, q] = .ok s) (hne : r.same s = false) : Disagree a b c := by
  have ha := hself a (by simp)
  have hb := hself b (by simp)
  have hc := hself c (by simp)
  refine ⟨⟨a, hm a (by simp), ha⟩, ⟨b, hm b (by simp), hb⟩, ⟨c, hm c (by simp), hc⟩, p, q, r, s, ?_,
    hne⟩
  exact
    { first := (evaluate_mul_of_simplify ha hb).trans hp
      left := (evaluate_mul_of_simplify (hself p (by simp)) hc).trans hr
      last := (evaluate_mul_of_simplify hb hc).trans hq
      right := (evaluate_mul_of_simplify ha (hself q (by simp))).trans hs }

/-- A rational is distributed over a sum before another factor comes, or stays beside it. -/
theorem disagree_distributed : Disagree (num 2) (sum [var "x", var "y"]) (var "z") := by
  have hs := isStable_sum_var
  have hterm (x : String) : Canonical.product [num 2, var x] = .ok (product [num 2, var x]) := by
    rw [Canonical.product_num_eq (Expr.isStable_var x)]
    with_unfolding_all rfl
  have hp : Canonical.product [num 2, sum [var "x", var "y"]] =
      .ok (sum [product [num 2, var "x"], product [num 2, var "y"]]) := by
    have hterms : List.Forall₂ (fun t r => Canonical.product [num 2, t] = .ok r) [var "x", var "y"]
        [product [num 2, var "x"], product [num 2, var "y"]] :=
      .cons (hterm "x") (.cons (hterm "y") .nil)
    have hone : (2 : Rat) * Expr.coefficientOf (sum [var "x", var "y"]).factors = 2 := mul_one 2
    have hspread : Canonical.spread? 2 (Expr.nonNumbers (sum [var "x", var "y"]).factors) =
        some [var "x", var "y"] :=
      Canonical.spread?_eq_some_iff.mpr ⟨rfl, by decide, by decide⟩
    rw [Canonical.product_num_eq hs, hone, if_neg (by decide), Canonical.distribute, hspread]
    simp only [Canonical.mapM_eq_ok_iff.mpr hterms]
    with_unfolding_all rfl
  have hr : Canonical.product [sum [product [num 2, var "x"], product [num 2, var "y"]], var "z"] =
      .ok (product [var "z", sum [product [num 2, var "x"], product [num 2, var "y"]]]) := by
    rw [Canonical.product_eq]
    with_unfolding_all rfl
  have hq : Canonical.product [sum [var "x", var "y"], var "z"] =
      .ok (product [var "z", sum [var "x", var "y"]]) := by
    rw [Canonical.product_eq]
    with_unfolding_all rfl
  have hs' : Canonical.product [num 2, product [var "z", sum [var "x", var "y"]]] =
      .ok (product [num 2, var "z", sum [var "x", var "y"]]) := by
    rw [Canonical.product_eq]
    with_unfolding_all rfl
  have hself : ∀ e ∈ [num 2, sum [var "x", var "y"], var "z",
      sum [product [num 2, var "x"], product [num 2, var "y"]],
      product [var "z", sum [var "x", var "y"]]], e.simplify = .ok e := by
    simp only [List.forall_mem_cons]
    refine ⟨rfl, hs.simplify, rfl, ?_, ?_, List.forall_mem_nil _⟩
    · obtain ⟨r, hr, hstable, -⟩ := Canonical.hasCoordinates_product_num hs 2
      exact Except.ok.inj (hp.symm.trans hr) ▸ hstable.simplify
    · rw [Expr.simplify_product (.cons rfl (.cons hs.simplify .nil)), Canonical.product_eq]
      with_unfolding_all rfl
  exact disagree_of_products (by simp) hself hp hr hq hs' (by with_unfolding_all rfl)

/-- Two roots come to a number before another power of that number comes, or are merged with it. -/
theorem disagree_evaluated :
    Disagree (power (num 2) (num (1 / 2))) (power (num 2) (num (1 / 2)))
      (power (num 2) (var "y")) := by
  have hpower (e : Expr) (hn : e.isNum = false) (h0 : e.isZero = false) (h1 : e.isOne = false) :
      Canonical.power (num 2) e = .ok (power (num 2) e) :=
    Canonical.Raised.eq_ok (.number h0 h1 2 rfl (Canonical.numberPower_of_not_isNum (by decide) hn))
  have hroot : Canonical.power (num 2) (num (1 / 2)) = .ok (power (num 2) (num (1 / 2))) := by
    rw [Canonical.power_eq]
    with_unfolding_all rfl
  have htwo : Canonical.power (num 2) (num 1) = .ok (num 2) := by
    rw [Canonical.power_eq]
    with_unfolding_all rfl
  -- The exponents add up to one, to a half more than `y`, and to one more than `y`.
  have hone : Canonical.inOrder (Canonical.sum [num (1 / 2), num (1 / 2)]) = .ok (num 1) := by
    with_unfolding_all rfl
  have hhalf : Canonical.inOrder (Canonical.sum [var "y", num (1 / 2)]) =
      .ok (sum [num (1 / 2), var "y"]) := by
    with_unfolding_all rfl
  have hwhole : Canonical.inOrder (Canonical.sum [sum [num (1 / 2), var "y"], num (1 / 2)]) =
      .ok (sum [num 1, var "y"]) := by
    with_unfolding_all rfl
  have hp : Canonical.product [power (num 2) (num (1 / 2)), power (num 2) (num (1 / 2))] =
      .ok (num 2) := by
    rw [product_power_power hone htwo]
    with_unfolding_all rfl
  have hr : Canonical.product [num 2, power (num 2) (var "y")] =
      .ok (product [num 2, power (num 2) (var "y")]) := by
    rw [Canonical.product_eq]
    with_unfolding_all rfl
  have hq : Canonical.product [power (num 2) (num (1 / 2)), power (num 2) (var "y")] =
      .ok (power (num 2) (sum [num (1 / 2), var "y"])) := by
    rw [product_power_power hhalf (hpower _ rfl rfl rfl)]
    with_unfolding_all rfl
  have hs : Canonical.product
      [power (num 2) (num (1 / 2)), power (num 2) (sum [num (1 / 2), var "y"])] =
        .ok (power (num 2) (sum [num 1, var "y"])) := by
    rw [product_power_power hwhole (hpower _ rfl rfl rfl)]
    with_unfolding_all rfl
  have hsum : (sum [num (1 / 2), var "y"]).simplify = .ok (sum [num (1 / 2), var "y"]) := by
    rw [Expr.simplify_sum (.cons rfl (.cons rfl .nil))]
    with_unfolding_all rfl
  have hself : ∀ e ∈ [power (num 2) (num (1 / 2)), power (num 2) (num (1 / 2)),
        power (num 2) (var "y"), num 2, power (num 2) (sum [num (1 / 2), var "y"])],
      e.simplify = .ok e := by
    simp only [List.forall_mem_cons]
    have ha := (Expr.simplify_power (x := num 2) (e := num (1 / 2)) rfl rfl).trans hroot
    refine ⟨ha, ha, ?_, rfl, ?_, List.forall_mem_nil _⟩
    · exact (Expr.simplify_power rfl rfl).trans (hpower _ rfl rfl rfl)
    · exact (Expr.simplify_power rfl hsum).trans (hpower _ rfl rfl rfl)
  exact disagree_of_products (by simp) hself hp hr hq hs (by with_unfolding_all rfl)

/-- Two roots of a product come to that product before another root comes, or are merged with it. -/
theorem disagree_expanded :
    Disagree (power (product [num (-1), var "x"]) (num (1 / 2)))
      (power (product [num (-1), var "x"]) (num (1 / 2)))
      (power (product [num (-1), var "x"]) (num (1 / 3))) := by
  have hpower (k : Rat) (hi : (num k).isInteger = false) (h0 : (num k).isZero = false)
      (h1 : (num k).isOne = false) : Canonical.power (product [num (-1), var "x"]) (num k) =
        .ok (power (product [num (-1), var "x"]) (num k)) :=
    Canonical.Raised.eq_ok (.stays h0 h1 rfl (by simp) (fun _ => hi) rfl)
  have hhalf := hpower (1 / 2) (by decide +kernel) (by decide +kernel) (by decide +kernel)
  have hthird := hpower (1 / 3) (by decide +kernel) (by decide +kernel) (by decide +kernel)
  have hboth := hpower (5 / 6) (by decide +kernel) (by decide +kernel) (by decide +kernel)
  have hall := hpower (4 / 3) (by decide +kernel) (by decide +kernel) (by decide +kernel)
  -- The exponents add up to one, to five sixths, and to four thirds.
  have hone : Canonical.inOrder (Canonical.sum [num (1 / 2), num (1 / 2)]) = .ok (num 1) := by
    with_unfolding_all rfl
  have hsixths : Canonical.inOrder (Canonical.sum [num (1 / 3), num (1 / 2)]) =
      .ok (num (5 / 6)) := by
    with_unfolding_all rfl
  have hthirds : Canonical.inOrder (Canonical.sum [num (5 / 6), num (1 / 2)]) =
      .ok (num (4 / 3)) := by
    with_unfolding_all rfl
  have hp : Canonical.product [power (product [num (-1), var "x"]) (num (1 / 2)),
      power (product [num (-1), var "x"]) (num (1 / 2))] = .ok (product [num (-1), var "x"]) := by
    have hbase : Canonical.power (product [num (-1), var "x"]) (num 1) =
        .ok (product [num (-1), var "x"]) := Canonical.Raised.eq_ok (.one rfl rfl rfl)
    have hagain : Canonical.product [product [num (-1), var "x"], num (1 * 1)] =
        .ok (product [num (-1), var "x"]) := by
      rw [Canonical.product_eq]
      with_unfolding_all rfl
    rw [product_power_power hone hbase, Canonical.multiply, if_pos (by decide)]
    exact hagain
  have hr : Canonical.product [product [num (-1), var "x"],
      power (product [num (-1), var "x"]) (num (1 / 3))] =
        .ok (product [num (-1), var "x", power (product [num (-1), var "x"]) (num (1 / 3))]) := by
    rw [Canonical.product_eq]
    with_unfolding_all rfl
  have hq : Canonical.product [power (product [num (-1), var "x"]) (num (1 / 2)),
      power (product [num (-1), var "x"]) (num (1 / 3))] =
        .ok (power (product [num (-1), var "x"]) (num (5 / 6))) := by
    rw [product_power_power hsixths hboth]
    with_unfolding_all rfl
  have hs : Canonical.product [power (product [num (-1), var "x"]) (num (1 / 2)),
      power (product [num (-1), var "x"]) (num (5 / 6))] =
        .ok (power (product [num (-1), var "x"]) (num (4 / 3))) := by
    rw [product_power_power hthirds hall]
    with_unfolding_all rfl
  have hself : ∀ e ∈ [power (product [num (-1), var "x"]) (num (1 / 2)),
      power (product [num (-1), var "x"]) (num (1 / 2)),
      power (product [num (-1), var "x"]) (num (1 / 3)), product [num (-1), var "x"],
      power (product [num (-1), var "x"]) (num (5 / 6))], e.simplify = .ok e := by
    have hb : (product [num (-1), var "x"]).simplify = .ok (product [num (-1), var "x"]) := by
      rw [Expr.simplify_product (.cons rfl (.cons rfl .nil)), Canonical.product_eq]
      with_unfolding_all rfl
    have hnum (k : Rat) : (num k).simplify = .ok (num k) := rfl
    simp only [List.forall_mem_cons]
    have ha := (Expr.simplify_power hb (hnum _)).trans hhalf
    refine ⟨ha, ha, ?_, hb, ?_, List.forall_mem_nil _⟩
    · exact (Expr.simplify_power hb (hnum _)).trans hthird
    · exact (Expr.simplify_power hb (hnum _)).trans hboth
  exact disagree_of_products (by simp) hself hp hr hq hs (by with_unfolding_all rfl)

end StackAlgebra.Operator
