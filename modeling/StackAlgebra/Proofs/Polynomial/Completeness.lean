import StackAlgebra.Proofs.Operator.VectorSpace
import StackAlgebra.Proofs.Polynomial.Monomial
import Mathlib.LinearAlgebra.Finsupp.LinearCombination

/-!
# Completeness on Laurent polynomials

The canonical form of a Laurent polynomial is a rational combination of canonical monomials, with
the coefficients of the expansion (`Expr.hasExpansion_simplify`). Monomials with different exponents
are never like terms, so that the coefficients can be read off the canonical form
(`Laurent.coordinates_rest`). Hence two expressions of Laurent polynomials have the same canonical
form exactly if they expand to the same coefficients (`Expr.same_iff_coeff_eq`).
-/

namespace StackAlgebra

open StackAlgebra.Expr (num rest? areLike coefficientOf)
open AddMonoidAlgebra (single)

variable {v w : Atom →₀ ℤ} {c : ℚ}

/-! ## Coordinates of monomials -/

namespace Canonical

/-- The coordinates of a monomial are multiples of those of the monomial without coefficient. -/
theorem coordinates_monomial (c : ℚ) (v : Atom →₀ ℤ) :
    (monomial c v).coordinates = c • (monomial 1 v).coordinates := by
  obtain ⟨r, hr, -, hrc⟩ := hasCoordinates_product_num (stable_monomial 1 v) c
  have hproduct := product_monomials [(c, 0), (1, v)]
  simp only [monomials, List.map_cons, List.map_nil, monomial_zero_right, List.prod_cons,
    List.prod_nil, List.sum_cons, List.sum_nil, mul_one, zero_add, add_zero] at hproduct
  rw [← hrc, Except.ok.inj (hr.symm.trans hproduct)]

/-- Canonical monomials are terms. -/
theorem isTerm_monomial (c : ℚ) (v : Atom →₀ ℤ) :
    (monomial c v).IsSettled ∧ (monomial c v).isSum = false :=
  ⟨(stable_monomial c v).settled, not_isSum_monomial c v⟩

/-- The coefficient of a term is that of its factors. -/
theorem splitCoefficient_eq (e : Expr) : e.splitCoefficient.1 = coefficientOf e.factors := by
  cases e with
  | num q => exact (mul_one q).symm
  | _ => rfl

/-- Monomials with different exponents are no like terms. -/
theorem areLike_monomial_iff :
    areLike (rest? (monomial 1 v)) (rest? (monomial 1 w)) = true ↔ v = w := by
  constructor
  · intro h
    have hcoef : (monomial 1 v).splitCoefficient.1 = (monomial 1 w).splitCoefficient.1 := by
      rw [splitCoefficient_eq, splitCoefficient_eq, coefficientOf_monomial, coefficientOf_monomial]
    exact monomial_injective one_ne_zero
      (eq_of_areLike (isTerm_monomial 1 v) (isTerm_monomial 1 w) h hcoef)
  · rintro rfl
    exact Expr.areLike_self _

/-- A monomial without coefficient has a coordinate at its own exponents only. -/
theorem coordinates_monomial_rest (w v : Atom →₀ ℤ) :
    (monomial 1 w).coordinates (rest? (monomial 1 v)) = if w = v then 1 else 0 := by
  rw [coordinates_of_not_isSum (not_isSum_monomial 1 w), splitCoefficient_eq,
    coefficientOf_monomial]
  exact if_congr areLike_monomial_iff rfl rfl

end Canonical

/-! ## Combinations of monomials -/

namespace Laurent

open Canonical (monomial)

/-- The coordinates of the rational combination of canonical monomials with these coefficients. -/
noncomputable def coordinates (p : Laurent) : Option Expr → ℚ :=
  Finsupp.linearCombination ℚ (fun v => (monomial 1 v).coordinates) p.coeff

/-- The coordinates of a single term are those of its canonical monomial. -/
theorem coordinates_single (v : Atom →₀ ℤ) (c : ℚ) :
    coordinates (single v c) = (monomial c v).coordinates := by
  rw [coordinates, AddMonoidAlgebra.coeff_single, Finsupp.linearCombination_single]
  exact (Canonical.coordinates_monomial c v).symm

/-- The coordinates of sums add up. -/
theorem coordinates_sum (ps : List Laurent) : coordinates ps.sum = (ps.map coordinates).sum := by
  induction ps with
  | nil => exact map_zero _
  | cons p ps ih =>
    rw [List.sum_cons, List.map_cons, List.sum_cons, ← ih]
    exact map_add _ p.coeff ps.sum.coeff

/-- The coordinates of multiples are multiples. -/
theorem coordinates_smul (c : ℚ) (p : Laurent) : coordinates (c • p) = c • coordinates p :=
  map_smul _ c p.coeff

/-- The coefficients can be read off the coordinates. -/
theorem coordinates_rest (p : Laurent) (v : Atom →₀ ℤ) :
    coordinates p (rest? (monomial 1 v)) = p.coeff v := by
  -- Of all the terms only that with the exponents `v` has the coordinate asked for.
  have hterm : ∀ w ∈ p.coeff.support,
      (p.coeff w • (monomial 1 w).coordinates) (rest? (monomial 1 v)) =
        if w = v then p.coeff w else 0 := by
    intro w _
    rw [Pi.smul_apply, Canonical.coordinates_monomial_rest, smul_eq_mul, mul_ite, mul_one, mul_zero]
  rw [coordinates, Finsupp.linearCombination_apply, Finsupp.sum, Finset.sum_apply,
    Finset.sum_congr rfl hterm, Finset.sum_ite_eq']
  exact ite_eq_left_iff.mpr fun h => (Finsupp.notMem_support_iff.mp h).symm

/-- Laurent polynomials can be told from their coordinates. -/
theorem coordinates_injective : Function.Injective coordinates := by
  intro p q h
  ext v
  rw [← coordinates_rest, h, coordinates_rest]

end Laurent

namespace Expr

variable {e r e₁ e₂ r₁ r₂ : Expr} {ts rs ns ms : List Expr}

/-! ## Numbers as factors -/

/-- Numbers are factors by themselves. -/
theorem flatMap_factors_of_isNum (h : ∀ n ∈ ns, n.isNum = true) : ns.flatMap factors = ns :=
  flatMap_factors fun n hn => by
    obtain ⟨q, rfl⟩ := exists_eq_num (h n hn)
    rfl

/-- What simplifies to numbers. -/
theorem simplified_of_isNum (h : ∀ n ∈ ns, n.isNum = true)
    (hr : List.Forall₂ (fun e r => e.simplify = .ok r) ns rs) : rs = ns := by
  induction hr with
  | nil => rfl
  | cons hn _ ih =>
    obtain ⟨hnum, hns⟩ := List.forall_mem_cons.mp h
    obtain ⟨q, rfl⟩ := exists_eq_num hnum
    rw [← Except.ok.inj hn, ih hns]

/-- Among numbers only one expression is to be simplified. -/
theorem simplified_multiple (h : ∀ n ∈ ns ++ ms, n.isNum = true)
    (hr : List.Forall₂ (fun e r => e.simplify = .ok r) (ns ++ e :: ms) rs) :
    ∃ r, e.simplify = .ok r ∧ rs = ns ++ r :: ms := by
  induction ns generalizing rs with
  | nil =>
    obtain ⟨r, rs, her, hrs, rfl⟩ := List.forall₂_cons_left_iff.mp hr
    exact ⟨r, her, by rw [simplified_of_isNum h hrs, List.nil_append, List.nil_append]⟩
  | cons n ns ih =>
    obtain ⟨m, rs, hn, hrs, rfl⟩ := List.forall₂_cons_left_iff.mp hr
    obtain ⟨hnum, h⟩ := List.forall_mem_cons.mp h
    obtain ⟨r, her, rfl⟩ := ih h hrs
    obtain ⟨q, rfl⟩ := exists_eq_num hnum
    exact ⟨r, her, by rw [← Except.ok.inj hn, List.cons_append]⟩

/-- Numbers are multiplied before they meet anything else. -/
theorem product_multiple (h : ∀ n ∈ ns ++ ms, n.isNum = true) (hr : r.IsStable) :
    Canonical.product (ns ++ r :: ms) = Canonical.product [num (coefficientOf (ns ++ ms)), r] := by
  obtain ⟨hns, hms⟩ := List.forall_mem_append.mp h
  have hsettled : ∀ f ∈ [num (coefficientOf (ns ++ ms)), r], f.IsSettled := by
    simpa using ⟨settled_num _, hr.settled⟩
  have hsettled' : ∀ f ∈ ns ++ r :: ms, f.IsSettled := by
    have hnum : ∀ n : Expr, n.isNum = true → n.IsSettled := by
      intro n hn
      obtain ⟨q, rfl⟩ := exists_eq_num hn
      exact settled_num q
    refine List.forall_mem_append.mpr ⟨fun n hn => hnum n (hns n hn), List.forall_mem_cons.mpr ?_⟩
    exact ⟨hr.settled, fun n hn => hnum n (hms n hn)⟩
  have hnil {l : List Expr} (hl : ∀ n ∈ l, n.isNum = true) : nonNumbers l = [] :=
    List.filter_eq_nil_iff.mpr fun n hn => by simp [hl n hn]
  -- Both products have the same coefficient and the same other factors, and a product depends on no
  -- more.
  obtain ⟨s, hs, -⟩ := Canonical.hasCoordinates_product_num hr (coefficientOf (ns ++ ms))
  rw [hs]
  have hleft : (ns ++ r :: ms).flatMap factors = ns ++ (r.factors ++ ms) := by
    rw [List.flatMap_append, List.flatMap_cons, flatMap_factors_of_isNum hns,
      flatMap_factors_of_isNum hms]
  have hright : [num (coefficientOf (ns ++ ms)), r].flatMap factors =
      num (coefficientOf (ns ++ ms)) :: r.factors :=
    congrArg (_ :: ·) (List.append_nil _)
  refine Canonical.product_congr_factors hsettled hsettled' ?_ ?_ hs
  · rw [hleft, hright, Canonical.coefficientOf_append, Canonical.coefficientOf_append,
      coefficientOf, Canonical.coefficientOf_append]
    ring
  · rw [hleft, hright, nonNumbers_append, nonNumbers_append, hnil hns, hnil hms, List.append_nil]
    exact .refl _

/-- A product with numbers expands to a multiple. -/
theorem expansion_multiple (h : ∀ n ∈ ns ++ ms, n.isNum = true) :
    (product (ns ++ e :: ms)).expansion = coefficientOf (ns ++ ms) • e.expansion := by
  obtain ⟨hns, hms⟩ := List.forall_mem_append.mp h
  rw [expansion_product, List.map_append, List.prod_append, List.map_cons, List.prod_cons,
    prod_expansion_of_isNum hns, prod_expansion_of_isNum hms, Canonical.coefficientOf_append,
    mul_smul, mul_comm e.expansion, Laurent.single_zero_mul, Laurent.single_zero_mul]

/-! ## Canonical forms -/

/-- The expression is stable, and its coordinates are those of what the other one expands to. -/
def HasExpansion (e r : Expr) : Prop :=
  r.IsStable ∧ r.coordinates = Laurent.coordinates e.expansion

/-- What has the coordinates of the expansion is a canonical form if it is the result. -/
theorem hasExpansion_of_hasCoordinates {x : Except Error Expr}
    (h : Canonical.HasCoordinates x (Laurent.coordinates e.expansion)) (hr : x = .ok r) :
    HasExpansion e r := by
  obtain ⟨s, hs, hstable, hcoord⟩ := h
  obtain rfl := Except.ok.inj (hs.symm.trans hr)
  exact ⟨hstable, hcoord⟩

/-- Sums have the sums of coordinates. -/
theorem hasExpansion_sum (h : List.Forall₂ HasExpansion ts rs) :
    HasExpansion (sum ts) (Canonical.sum rs) := by
  have hstable : ∀ r ∈ rs, r.IsStable := by
    intro r hr
    obtain ⟨t, -, htr⟩ := Canonical.exists_of_mem_forall₂ h hr
    exact htr.1
  have hcoord : rs.map coordinates = (ts.map expansion).map Laurent.coordinates := by
    induction h with
    | nil => rfl
    | cons htr _ ih =>
      obtain ⟨-, hrs⟩ := List.forall_mem_cons.mp hstable
      rw [List.map_cons, List.map_cons, List.map_cons, htr.2, ih hrs]
  have hsum := Canonical.hasCoordinates_sum hstable
  rw [hcoord, ← Laurent.coordinates_sum, ← expansion_sum] at hsum
  obtain ⟨r, hr, hs, hc⟩ := hsum
  obtain ⟨rfl, -⟩ := Canonical.inOrder_eq_ok_iff.mp hr
  exact ⟨hs, hc⟩

/-- The canonical form of a Laurent polynomial is stable, and its coordinates are those of the
expansion. -/
theorem hasExpansion_simplify (h : IsLaurent e) (hr : e.simplify = .ok r) : HasExpansion e r := by
  induction h generalizing r with
  | monomial h =>
    obtain ⟨c, v, he, rfl⟩ := simplify_monomial h hr
    exact ⟨Canonical.stable_monomial c v, by rw [he, Laurent.coordinates_single]⟩
  | sum _ ih =>
    cases simplify_eq_ok_iff.mp hr with
    | sum hrs ho =>
      exact hasExpansion_sum (Canonical.forall₂_imp_of_mem hrs fun t ht r htr => ih t ht htr)
  | @neg x _ ih =>
    cases simplify_eq_ok_iff.mp hr with
    | unary hx hr =>
      obtain ⟨hs, hc⟩ := ih hx
      refine hasExpansion_of_hasCoordinates ?_ hr
      rw [expansion_neg, ← neg_one_smul ℚ, Laurent.coordinates_smul, ← hc]
      exact Canonical.hasCoordinates_product_num hs (-1)
  | @multiple ns ms x hn _ ih =>
    cases simplify_eq_ok_iff.mp hr with
    | product hrs hr =>
      obtain ⟨s, hx, rfl⟩ := simplified_multiple hn hrs
      obtain ⟨hs, hc⟩ := ih hx
      rw [product_multiple hn hs] at hr
      refine hasExpansion_of_hasCoordinates ?_ hr
      rw [expansion_multiple hn, Laurent.coordinates_smul, ← hc]
      exact Canonical.hasCoordinates_product_num hs _

/-- Laurent polynomials have the same canonical form exactly if they expand to the same
coefficients. -/
theorem same_iff_coeff_eq (h₁ : IsLaurent e₁) (h₂ : IsLaurent e₂) (hr₁ : e₁.simplify = .ok r₁)
    (hr₂ : e₂.simplify = .ok r₂) :
    r₁.same r₂ = true ↔ ∀ v, e₁.expansion.coeff v = e₂.expansion.coeff v := by
  obtain ⟨hs₁, hc₁⟩ := hasExpansion_simplify h₁ hr₁
  obtain ⟨hs₂, hc₂⟩ := hasExpansion_simplify h₂ hr₂
  rw [hs₁.settled.same_iff_eq hs₂.settled]
  constructor
  · rintro rfl v
    rw [Laurent.coordinates_injective (hc₁.symm.trans hc₂)]
  · intro h
    refine Canonical.eq_of_coordinates_eq hs₁.settled hs₂.settled ?_
    rw [hc₁, hc₂, AddMonoidAlgebra.ext (Finsupp.ext h)]

/-- Twice a variable and the inverse of another have one canonical form, in whatever order they are
added up, and expand to the same coefficients. -/
theorem same_iff_coeff_eq_doubled : ∃ r₁ r₂,
    (sum [var "x", power (var "y") (num (-1)), var "x"]).simplify = .ok r₁ ∧
    (sum [power (var "y") (num (-1)), product [var "x", num 2]]).simplify = .ok r₂ ∧
    (r₁.same r₂ = true ↔
      ∀ v, (sum [var "x", power (var "y") (num (-1)), var "x"]).expansion.coeff v =
        (sum [power (var "y") (num (-1)), product [var "x", num 2]]).expansion.coeff v) := by
  have hvar : (var "x").simplify = .ok (var "x") := rfl
  have hinverse : (power (var "y") (num (-1))).simplify = .ok (power (var "y") (num (-1))) := by
    refine simplify_eq_ok_iff.mpr (.power rfl rfl ?_)
    rw [Canonical.power_eq]
    with_unfolding_all rfl
  have hdouble : (product [var "x", num 2]).simplify = .ok (product [num 2, var "x"]) := by
    refine simplify_eq_ok_iff.mpr (.product (.cons rfl (.cons rfl .nil)) ?_)
    rw [Canonical.product_eq]
    with_unfolding_all rfl
  have h₁ : (sum [var "x", power (var "y") (num (-1)), var "x"]).simplify =
      .ok (sum [power (var "y") (num (-1)), product [num 2, var "x"]]) := by
    rw [simplify_sum (.cons hvar (.cons hinverse (.cons hvar .nil)))]
    with_unfolding_all rfl
  have h₂ : (sum [power (var "y") (num (-1)), product [var "x", num 2]]).simplify =
      .ok (sum [power (var "y") (num (-1)), product [num 2, var "x"]]) := by
    rw [simplify_sum (.cons hinverse (.cons hdouble .nil))]
    with_unfolding_all rfl
  have hx : IsMonomial (var "x") := .var "x"
  have hy : IsMonomial (power (var "y") (num (-1))) := by
    simpa using IsMonomial.power (.var "y") (-1)
  have hl₁ : IsLaurent (sum [var "x", power (var "y") (num (-1)), var "x"]) :=
    .sum (by simpa using ⟨IsLaurent.monomial hx, IsLaurent.monomial hy, IsLaurent.monomial hx⟩)
  have hl₂ : IsLaurent (sum [power (var "y") (num (-1)), product [var "x", num 2]]) := by
    have hxx : IsLaurent (product ([] ++ var "x" :: [num 2])) :=
      .multiple (by simp [isNum]) (.monomial hx)
    exact .sum (by simpa using ⟨IsLaurent.monomial hy, hxx⟩)
  exact ⟨_, _, h₁, h₂, same_iff_coeff_eq hl₁ hl₂ h₁ h₂⟩

end Expr
end StackAlgebra
