import StackAlgebra.Proofs.Expr.Renaming
import StackAlgebra.Proofs.NormalForm.Sum

/-!
# Sums under new names

Under injective new names, the terms of a sum are split, grouped and merged as under the old ones,
since all of this asks only which expressions are the same and what the numbers among them are. What
changes is the order in which opened terms come, as the terms of a sum that is opened stand in the
order of the new names, and on that a sum does not depend. So the sum of relabelled expressions is
the relabelled sum (`sum_relabel`).
-/

namespace StackAlgebra

namespace Expr

open scoped List

variable {s : String → String} {e : Expr} {es : List Expr}

/-! ## What new names leave as it is -/

/-- Renaming makes nothing a number. -/
@[simp] theorem isNum_relabel (s : String → String) (e : Expr) : (e.relabel s).isNum = e.isNum := by
  cases e <;> simp [isNum]

/-- Renaming makes nothing a product. -/
@[simp] theorem isProduct_relabel (s : String → String) (e : Expr) :
    (e.relabel s).isProduct = e.isProduct := by
  cases e <;> simp [isProduct]

/-- The numbers multiply to the same coefficient under new names. -/
theorem coefficientOf_relabel (s : String → String) (es : List Expr) :
    coefficientOf (es.map (relabel s)) = coefficientOf es := by
  induction es with
  | nil => rfl
  | cons e es ih =>
    rw [List.map_cons]
    cases e with
    | num q => exact congrArg (q * ·) ih
    | _ => simpa [coefficientOf] using ih

/-- What is no number is none under new names. -/
theorem nonNumbers_relabel (s : String → String) (es : List Expr) :
    nonNumbers (es.map (relabel s)) = (nonNumbers es).map (relabel s) := by
  rw [nonNumbers, List.filter_map, nonNumbers]
  simp [Function.comp_def]

/-- Numbers can be taken out before or after putting in order. -/
theorem nonNumbers_sort_relabel (s : String → String) (es : List Expr) :
    nonNumbers (sort (es.map (relabel s))) = sort ((nonNumbers es).map (relabel s)) := by
  have hp : nonNumbers (sort (es.map (relabel s))) ~ (nonNumbers es).map (relabel s) := by
    rw [← nonNumbers_relabel]
    exact (perm_sort _).filter _
  have ho : (nonNumbers (sort (es.map (relabel s)))).Pairwise (· ≤ ·) :=
    (pairwise_sort _).sublist List.filter_sublist
  rw [← sort_of_pairwise ho]
  refine sort_eq_sort_of_perm hp fun e he => ?_
  obtain ⟨x, -, rfl⟩ := List.mem_map.mp (hp.mem_iff.mp he)
  exact inOrder_relabel s x

/-- Factors that are put together and relabelled are relabelled and put together. -/
theorem productOf?_relabel (s : String → String) (es : List Expr) :
    productOf? (sort (es.map (relabel s))) = (productOf? es).map (relabel s) := by
  match es with
  | [] => rfl
  | [f] => rfl
  | f :: g :: es =>
    have hlen : 2 ≤ (sort ((f :: g :: es).map (relabel s))).length := by
      rw [(perm_sort _).length_eq]
      simp
    have htwo {ds : List Expr} (h : 2 ≤ ds.length) : productOf? ds = some (product ds) := by
      match ds, h with
      | _ :: _ :: _, _ => rfl
    rw [htwo hlen, htwo (by simp), Option.map_some, relabel_product]

/-- A term has the coefficient that it had, and the rest gets the new names. -/
theorem splitCoefficient_relabel (s : String → String) (e : Expr) :
    (e.relabel s).splitCoefficient =
      (e.splitCoefficient.1, e.splitCoefficient.2.map (relabel s)) := by
  cases e with
  | product fs =>
    rw [relabel_product, splitCoefficient, splitCoefficient, nonNumbers_sort_relabel,
      productOf?_relabel, coefficientOf_perm (perm_sort _), coefficientOf_relabel]
  | sum ts => simp [splitCoefficient]
  | _ => rfl

/-- The factors of an expression come in the order of the new names. -/
theorem factors_relabel (s : String → String) (e : Expr) :
    (e.relabel s).factors ~ e.factors.map (relabel s) := by
  cases e with
  | product fs =>
    rw [relabel_product]
    exact perm_sort _
  | sum ts => simp [factors]
  | _ => exact .refl _

end Expr

namespace Canonical

open StackAlgebra.Expr (num relabel)
open scoped List

variable {s : String → String} {ts : List Expr}

/-! ## Groups -/

/-- A value goes to the group with the same label under the new names. -/
theorem addTo_relabel {α β : Type} (hs : s.Injective) (f : α → β) (e : Expr) (a : α)
    (gs : List (Expr × List α)) :
    addTo (e.relabel s) (f a) (gs.map (Prod.map (relabel s) (List.map f))) =
      (addTo e a gs).map (Prod.map (relabel s) (List.map f)) := by
  induction gs with
  | nil => rfl
  | cons g gs ih =>
    rw [List.map_cons, addTo, Prod.map_fst, Expr.same_relabel hs, addTo]
    split_ifs
    · simp
    · rw [ih, List.map_cons]
      rfl

/-- Relabelled members make the relabelled groups. -/
theorem group_relabel {α β : Type} (hs : s.Injective) (f : α → β) (l : List (Expr × α)) :
    group (l.map (Prod.map (relabel s) f)) = (group l).map (Prod.map (relabel s) (List.map f)) := by
  induction l using List.reverseRecOn with
  | nil => rfl
  | append_singleton l x ih =>
    rw [List.map_append, List.map_singleton, group_append, ih, group_append]
    exact addTo_relabel hs f x.1 x.2 (group l)

/-! ## Terms -/

mutual
/-- The terms of an expression come in the order of the new names. -/
theorem summands_relabel (s : String → String) (e : Expr) :
    summands (e.relabel s) ~ (summands e).map (relabel s) := by
  cases e with
  | sum ts =>
    rw [Expr.relabel_sum, summands, summands, summandsOf_eq_flatMap]
    refine ((Expr.perm_sort _).flatMap_right _).trans ?_
    rw [← summandsOf_eq_flatMap]
    exact summandsOf_relabel s ts
  | product fs => simp [summands]
  | _ => exact .refl _

/-- The terms of expressions come in the order of the new names. -/
theorem summandsOf_relabel (s : String → String) (es : List Expr) :
    summandsOf (es.map (relabel s)) ~ (summandsOf es).map (relabel s) := by
  cases es with
  | nil => exact .refl _
  | cons e es =>
    rw [List.map_cons, summandsOf, summandsOf, List.map_append]
    exact (summands_relabel s e).append (summandsOf_relabel s es)
end

/-- The term with a coefficient. -/
theorem term_relabel (s : String → String) (c : Rat) (e : Expr) :
    term c (e.relabel s) = (term c e).relabel s := by
  unfold term
  split_ifs
  · rfl
  · have hp : num c :: (e.relabel s).factors ~
        (Expr.sort (num c :: e.factors)).map (relabel s) := by
      refine ((Expr.factors_relabel s e).cons _).trans ?_
      exact ((Expr.perm_sort (num c :: e.factors)).map (relabel s)).symm
    rw [Expr.relabel_product]
    refine congrArg Expr.product (Expr.sort_eq_sort_of_perm hp fun x hx => ?_)
    obtain ⟨y, -, rfl⟩ := List.mem_map.mp (hp.mem_iff.mp hx)
    exact Expr.inOrder_relabel s y

/-- Terms have the coefficients that they had, beside relabelled expressions. -/
theorem labelled_relabel (s : String → String) (ts : List Expr) :
    labelled (ts.map (relabel s)) = (labelled ts).map (Prod.map (relabel s) id) := by
  rw [labelled, List.filterMap_map, labelled, List.map_filterMap]
  refine List.filterMap_congr fun t _ => ?_
  rw [Function.comp_apply, Expr.splitCoefficient_relabel, Option.map_map, Option.map_map]
  rfl

/-- The numbers among the terms are those that there were. -/
theorem numberTerms_relabel (s : String → String) (ts : List Expr) :
    numberTerms (ts.map (relabel s)) = numberTerms ts := by
  rw [numberTerms, List.filterMap_map, numberTerms]
  refine List.filterMap_congr fun t _ => ?_
  rw [Function.comp_apply, Expr.splitCoefficient_relabel]
  rcases t.splitCoefficient with ⟨c, _ | r⟩ <;> rfl

/-- Like terms merge to the relabelled term. -/
theorem mergeLike_relabel (s : String → String) (g : Expr × List Rat) :
    mergeLike (Prod.map (relabel s) (List.map id) g) = (mergeLike g).map (relabel s) := by
  simp only [mergeLike, Prod.map_fst, Prod.map_snd, List.map_id, term_relabel]
  split_ifs <;> rfl

/-- Terms merge to the relabelled terms. -/
theorem mergedTerms_relabel (hs : s.Injective) (ts : List Expr) :
    mergedTerms (ts.map (relabel s)) = (mergedTerms ts).map (relabel s) := by
  rw [mergedTerms, mergedTerms, labelled_relabel, group_relabel hs, numberTerms_relabel,
    List.map_append, List.filterMap_map, List.map_filterMap]
  congr 1
  · exact List.filterMap_congr fun g _ => mergeLike_relabel s g
  · split_ifs <;> rfl

/-- Merged terms add up to the relabelled sum. -/
theorem sumOf_relabel (s : String → String) (ts : List Expr) :
    sumOf (ts.map (relabel s)) = (sumOf ts).relabel s := by
  match ts with
  | [] => rfl
  | [t] => rfl
  | t :: u :: ts =>
    show Expr.sum (Expr.sort ((t :: u :: ts).map (relabel s))) =
        (Expr.sum (Expr.sort (t :: u :: ts))).relabel s
    rw [Expr.relabel_sum, Expr.sort_map_relabel_of_perm s (Expr.perm_sort (t :: u :: ts))]

/-- What permutes relabelled expressions is relabelled itself. -/
theorem exists_perm_of_perm_map {ks : List Expr} (h : ks ~ ts.map (relabel s)) :
    ∃ us, ks = us.map (relabel s) ∧ us ~ ts := by
  have hcomp : Relation.Comp (· = List.map (relabel s) ·) (· ~ ·) ks ts := by
    rw [List.eq_map_comp_perm]
    exact h
  obtain ⟨us, hks, hus⟩ := hcomp
  exact ⟨us, hks, hus⟩

/-- Settled expressions under new names have the relabelled sum. -/
theorem sum_relabel (hs : s.Injective) (h : ∀ t ∈ ts, t.IsSettled) :
    sum (ts.map (relabel s)) = (sum ts).relabel s := by
  -- The opened terms come in another order, in which they merge to the same terms in another order.
  have hopen : (summandsOf (ts.map (relabel s))).reverse ~
      (summandsOf ts).reverse.map (relabel s) :=
    (List.reverse_perm _).trans ((summandsOf_relabel s ts).trans ((List.reverse_perm _).symm.map _))
  obtain ⟨us, hus, hp⟩ := exists_perm_of_perm_map hopen
  have hterms := areTerms_reverse h
  have hsum : sumOf (mergedTerms (summandsOf ts).reverse) = sumOf (mergedTerms us) :=
    sumOf_perm (fun t ht => (areTerms_mergedTerms hterms t ht).1) (mergedTerms_perm hterms hp.symm)
  rw [sum, hus, mergedTerms_relabel hs, sumOf_relabel, ← hsum, sum]

end Canonical
end StackAlgebra
