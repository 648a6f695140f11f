import StackAlgebra.Proofs.NormalForm.Coordinates
import StackAlgebra.Proofs.NormalForm.Idempotence
import StackAlgebra.Proofs.NormalForm.Measured
import Mathlib.Algebra.Module.Pi
import Mathlib.Algebra.BigOperators.Pi
import Mathlib.Algebra.BigOperators.GroupWithZero.Action

/-!
# Sums and rational multiples of stable expressions

An expression is stable if it is its own canonical form and no angle measure is missing in it. Sums
and rational multiples of stable expressions always exist and are stable, and coordinate by
coordinate they are the sums and multiples (`hasCoordinates_sum`, `hasCoordinates_product_num`). A
rational goes to the coefficient of a single term, and is distributed over the terms of a sum.
-/

namespace StackAlgebra.Expr

/-- The expression is its own canonical form, and no measure is missing in it. -/
structure IsStable (e : Expr) : Prop where
  settled : e.IsSettled
  distinct : e.HasDistinctBases
  measured : e.IsMeasured

/-- Numbers are stable. -/
theorem isStable_num (q : Rat) : (num q).IsStable :=
  ⟨settled_num q, .intro trivial (by simp), isMeasured_num q⟩

/-- Constants are stable. -/
theorem isStable_const (c : Constant) : (const c).IsStable :=
  ⟨settled_const c, .intro trivial (by simp), isMeasured_const c⟩

/-- Variables are stable. -/
theorem isStable_var (x : String) : (var x).IsStable :=
  ⟨settled_var x, .intro trivial (by simp), isMeasured_var x⟩

/-- Every part of a stable expression is stable. -/
theorem IsStable.child {e c : Expr} (h : e.IsStable) (hc : c ∈ e.children) : c.IsStable :=
  ⟨h.settled.child hc, h.distinct.child hc, h.measured.child hc⟩

/-- A stable expression is its own canonical form. -/
theorem IsStable.simplify {e : Expr} (h : e.IsStable) : e.simplify = .ok e :=
  simplify_fixed h.settled h.distinct

end StackAlgebra.Expr

namespace StackAlgebra.Canonical

open StackAlgebra.Expr (num nonNumbers coefficientOf coordinates HaveDistinctBases HasDistinctBases)
open scoped List

variable {a r : Expr} {fs ts rs l k : List Expr} {c p : Rat} {x : Except Error Expr}
  {f : Option Expr → Rat}

/-- The result is stable and has the coordinates. -/
def HasCoordinates (x : Except Error Expr) (f : Option Expr → Rat) : Prop :=
  ∃ r, x = .ok r ∧ r.IsStable ∧ r.coordinates = f

/-! ## Sums -/

/-- Whether bases are different has nothing to do with coefficients. -/
theorem ignoresCoefficients_hasDistinctBases : IgnoresCoefficients HasDistinctBases := by
  refine ignoresCoefficients_everywhere (fun _ => trivial) (fun _ => trivial) ?_ ?_
  · intro fs h
    have hl : ((nonNumbers fs).map Expr.base).length ≤ 1 := by rwa [List.length_map]
    show Expr.AreDistinct ((nonNumbers fs).map Expr.base)
    match (nonNumbers fs).map Expr.base, hl with
    | [], _ => exact .nil
    | [b], _ => exact List.pairwise_singleton _ b
  · exact fun fs gs hp h => h.perm (hp.symm.map Expr.base)

/-- The sum of stable expressions exists, and its coordinates are the sums of theirs. -/
theorem hasCoordinates_sum (h : ∀ t ∈ ts, t.IsStable) :
    HasCoordinates (inOrder (sum ts)) (ts.map coordinates).sum := by
  have hm : (sum ts).IsMeasured :=
    ignoresCoefficients_isMeasured.canonicalSum fun t ht => (h t ht).measured
  have hd : (sum ts).HasDistinctBases :=
    ignoresCoefficients_hasDistinctBases.canonicalSum fun t ht => (h t ht).distinct
  have hs := settled_sum (fun t ht => (h t ht).settled) hm.hasOrder
  refine ⟨sum ts, inOrder_eq_ok_iff.mpr ⟨rfl, hm.hasOrder⟩, ⟨hs, hd, hm⟩, ?_⟩
  funext k
  rw [coordinates_sum fun t ht => (h t ht).settled, Pi.list_sum_apply, List.map_map]
  rfl

/-! ## Multiples of a single term -/

/-- A rational and the factors of a settled expression are what their product works on. -/
theorem opened_num_perm (h : a.IsSettled) (p : Rat) : opened [num p, a] ~ num p :: a.factors := by
  have ha : multiplicands a = a.factors := by
    cases a with
    | product fs =>
      exact multiplicandsOf_of_not_isProduct (Expr.settled_product_iff.mp h).1.not_isProduct
    | _ => rfl
  have hopen : multiplicandsOf [num p, a] = num p :: a.factors := by
    simp only [multiplicandsOf, ha, List.append_nil]
    rfl
  rw [opened, hopen]
  exact List.reverse_perm _

/-- The order of merged bases makes no difference to what a rational is distributed over. -/
theorem distribute_perm (hl : ∀ f ∈ l, f.IsSettled) (h : l ~ k) :
    distribute c l = distribute c k := by
  rw [distribute, distribute, spread?_perm h, productOf_perm hl h]

/-- A rational times a stable expression vanishes, or meets its coefficient and the other
factors. -/
theorem product_num_eq (h : a.IsStable) (p : Rat) : product [num p, a] =
    if p * coefficientOf a.factors = 0 then .ok (num 0)
    else distribute (p * coefficientOf a.factors) (nonNumbers a.factors) := by
  have hp := opened_num_perm h.settled p
  have hcoef : coefficientOf (opened [num p, a]) = p * coefficientOf a.factors :=
    Expr.coefficientOf_perm hp
  have hnon : nonNumbers (opened [num p, a]) ~ nonNumbers a.factors := hp.filter _
  split_ifs with h0
  · rw [product_eq, if_pos (hcoef.trans h0)]
  · have hfs : ∀ f ∈ [num p, a], f.IsSettled := by simpa using ⟨Expr.settled_num p, h.settled⟩
    have hd : HaveDistinctBases a.factors := by
      cases a with
      | product fs => exact h.distinct.here
      | num q => exact .nil
      | _ => exact List.pairwise_singleton _ _
    have hd' : HaveDistinctBases (opened [num p, a]) := hd.perm (hnon.symm.map _)
    have hs : ∀ f ∈ nonNumbers (opened [num p, a]), f.IsSettled := fun f hf =>
      (areFactors_opened hfs f (Expr.mem_of_mem_nonNumbers hf)).1
    rw [product_of_distinct hfs (hcoef.trans_ne h0) hd', hcoef, distribute_perm hs hnon]

/-- A coefficient and the factors of the part beside it are put together to a term. -/
theorem productOf_factors (hr : r.IsMonic) (h0 : c ≠ 0) : productOf c r.factors = term c r := by
  rw [productOf, if_neg h0]
  by_cases h1 : c = 1
  · rw [if_pos h1, term, if_pos h1]
    cases r with
    | product fs =>
      obtain ⟨hfs, -, -⟩ := Expr.settled_product_iff.mp hr.settled
      rw [Expr.factors, collapse_of_two_le hfs.two_le, Expr.sort_of_pairwise hfs.ordered]
    | _ => rfl
  · have hlen := List.length_pos_of_ne_nil hr.settled.factors_ne_nil
    have hs := Expr.settled_append_num hr.settled.factors c
    rw [if_neg h1, hr.term_of_ne_one h1, collapse_of_two_le (by simp; omega),
      Expr.sort_eq_sort_of_settled (List.perm_append_singleton _ _) hs, hr.sort_cons]

/-- A coefficient is put before the part beside it. -/
theorem distribute_factors (hr : r.IsMonic) (h0 : c ≠ 0) :
    distribute c r.factors = inOrder (term c r) := by
  have hspread : spread? c r.factors = none := by
    refine spread?_eq_none fun ts hfactors => ?_
    have hsum := hr.settled.isSum_of_factors hfactors
    rw [hr.not_isSum] at hsum
    cases hsum
  rw [distribute, hspread, productOf_factors hr h0]

/-- The coefficient among the factors of a term, and the others. -/
theorem factors_term (hr : r.IsMonic) (c : Rat) :
    coefficientOf (term c r).factors = c ∧ nonNumbers (term c r).factors = r.factors := by
  by_cases h1 : c = 1
  · rw [term, if_pos h1, h1]
    exact ⟨Expr.coefficientOf_of_not_isNum hr.not_isNum, Expr.nonNumbers_of_not_isNum hr.not_isNum⟩
  · rw [hr.term_of_ne_one h1, Expr.factors, coefficientOf,
      Expr.coefficientOf_of_not_isNum hr.not_isNum, mul_one]
    refine ⟨rfl, ?_⟩
    rw [nonNumbers, List.filter_cons_of_neg (by simp [Expr.isNum])]
    exact Expr.nonNumbers_of_not_isNum hr.not_isNum

/-- A rational times a number is their product. -/
theorem product_num_num (p q : Rat) : product [num p, num q] = .ok (num (p * q)) := by
  have hq : coefficientOf (num q).factors = q := mul_one q
  rw [product_num_eq (Expr.isStable_num q), hq]
  split_ifs with h0
  · rw [h0]
  · have hnon : productOf (p * q) (nonNumbers (num q).factors) = num (p * q) := by
      show productOf (p * q) [] = num (p * q)
      rw [productOf, if_neg h0]
      split_ifs with h1
      · rw [h1]
        rfl
      · rfl
    exact inOrder_eq_ok_iff.mpr ⟨hnon.symm, by rw [hnon]; rfl⟩

/-- A rational times a number has the multiples of its coordinates. -/
theorem hasCoordinates_product_num_num (p q : Rat) :
    HasCoordinates (product [num p, num q]) (p • (num q).coordinates) := by
  refine ⟨num (p * q), product_num_num p q, Expr.isStable_num _, funext fun k => ?_⟩
  rw [Pi.smul_apply, coordinates_num, coordinates_num, smul_eq_mul, mul_ite, mul_zero]

/-- A rational times a term goes to its coefficient. -/
theorem hasCoordinates_product_num_term (hr : r.IsMonic) (h0 : c ≠ 0) (h : (term c r).IsStable)
    (p : Rat) : HasCoordinates (product [num p, term c r]) (p • (term c r).coordinates) := by
  obtain ⟨hcoef, hnon⟩ := factors_term hr c
  rw [product_num_eq h, hcoef, hnon]
  by_cases hp : p * c = 0
  · rw [if_pos hp, (mul_eq_zero.mp hp).resolve_right h0, zero_smul]
    exact ⟨num 0, rfl, Expr.isStable_num 0, coordinates_zero⟩
  · have hd := ignoresCoefficients_hasDistinctBases.rest h.distinct (hr.rest?_term c)
    have hm := ignoresCoefficients_isMeasured.rest h.measured (hr.rest?_term c)
    have hstable : (term (p * c) r).IsStable :=
      ⟨hr.settled_term hp, ignoresCoefficients_hasDistinctBases.term hd _,
        ignoresCoefficients_isMeasured.term hm _⟩
    rw [if_neg hp, distribute_factors hr hp]
    refine ⟨_, inOrder_eq_ok_iff.mpr ⟨rfl, hstable.measured.hasOrder⟩, hstable, funext fun k => ?_⟩
    rw [Pi.smul_apply, coordinates_term hr, coordinates_term hr, smul_eq_mul, mul_ite, mul_zero]

/-! ## Multiples of sums -/

/-- The coordinates of a sum are the sums of those of its terms. -/
theorem coordinates_settled_sum (h : (Expr.sum ts).IsSettled) :
    (Expr.sum ts).coordinates = (ts.map coordinates).sum := by
  obtain ⟨hn, -, hs⟩ := Expr.settled_sum_iff.mp h
  funext k
  rw [(isLinear_coordinates k).sum (fun t ht => ⟨hs t ht, hn.not_isSum t ht⟩) fun _ _ => trivial,
    Pi.list_sum_apply, List.map_map]
  rfl

/-- A rational times a sum is distributed over its terms. -/
theorem hasCoordinates_product_num_sum (h : (Expr.sum ts).IsStable) (p : Rat)
    (hts : ∀ t ∈ ts, HasCoordinates (product [num p, t]) (p • t.coordinates)) :
    HasCoordinates (product [num p, .sum ts]) (p • (Expr.sum ts).coordinates) := by
  have hcoef : p * coefficientOf (Expr.sum ts).factors = p := mul_one p
  have hnon : nonNumbers (Expr.sum ts).factors = [.sum ts] := rfl
  rw [product_num_eq h, hcoef, hnon]
  by_cases h0 : p = 0
  · rw [if_pos h0, h0, zero_smul]
    exact ⟨num 0, rfl, Expr.isStable_num 0, coordinates_zero⟩
  rw [if_neg h0, distribute]
  by_cases h1 : p = 1
  · have hspread : spread? p [.sum ts] = none := by simp [spread?, h1]
    have hone : productOf p [.sum ts] = .sum ts := by
      rw [productOf, if_neg h0, if_pos h1]
      rfl
    rw [hspread, hone, h1, one_smul]
    exact ⟨_, inOrder_eq_ok_iff.mpr ⟨rfl, h.measured.hasOrder⟩, h, rfl⟩
  · obtain ⟨rs, hrs, hstable, hval⟩ := exists_forall₂ hts
    rw [spread?_eq_some_iff.mpr ⟨rfl, h0, h1⟩]
    simp only [mapM_eq_ok_iff.mpr hrs]
    have hsum : (rs.map coordinates).sum = p • (Expr.sum ts).coordinates := by
      rw [hval, coordinates_settled_sum h.settled, List.smul_sum, List.map_map]
      rfl
    rw [← hsum]
    exact hasCoordinates_sum hstable

/-- A rational times a stable expression exists, and its coordinates are the multiples. -/
theorem hasCoordinates_product_num (h : a.IsStable) (p : Rat) :
    HasCoordinates (product [num p, a]) (p • a.coordinates) := by
  have single {t : Expr} (ht : t.IsStable) (hs : t.isSum = false) :
      HasCoordinates (product [num p, t]) (p • t.coordinates) := by
    rcases number_or_term ⟨ht.settled, hs⟩ with ⟨q, rfl⟩ | ⟨c, r, h0, hr, rfl⟩
    · exact hasCoordinates_product_num_num p q
    · exact hasCoordinates_product_num_term hr h0 ht p
  cases hs : a.isSum with
  | false => exact single h hs
  | true =>
    cases a with
    | sum ts =>
      have hn := (Expr.settled_sum_iff.mp h.settled).1.not_isSum
      exact hasCoordinates_product_num_sum h p fun t ht => single (h.child ht) (hn t ht)
    | _ => cases hs

end StackAlgebra.Canonical
