import StackAlgebra.Proofs.NormalForm.Sum
import Mathlib.Algebra.BigOperators.Ring.List
import Mathlib.Tactic.Ring

/-!
# Linear forms on canonical sums

A property of expressions that does not depend on the coefficients of their terms is kept by
canonical sums (`IgnoresCoefficients.canonicalSum`). A form that takes a coefficient out of a term
and adds up over the terms of a sum adds up over canonical sums as well (`IsLinear.canonicalSum`),
since like terms are merged by the distributive law and terms that cancel add nothing.
-/

namespace StackAlgebra.Canonical

open StackAlgebra.Expr (num nonNumbers isNum rest?)

variable {D : Expr → Prop} {f : Expr → Rat} {t : Expr} {ts us : List Expr}

/-! ## Properties without regard to coefficients -/

/-- Numbers have the property, sums have it with their terms, and a term has it with any coefficient
if it has it with one. -/
structure IgnoresCoefficients (D : Expr → Prop) : Prop where
  num (q : Rat) : D (num q)
  sum {ts : List Expr} : D (.sum ts) ↔ ∀ t ∈ ts, D t
  rest {t r : Expr} (h : D t) (hr : rest? t = some r) : D r
  term {r : Expr} (h : D r) (c : Rat) : D (term c r)

namespace IgnoresCoefficients

mutual
/-- The terms of an expression have the property if the expression has it. -/
theorem forall_summands (hD : IgnoresCoefficients D) (e : Expr) (h : D e) :
    ∀ t ∈ summands e, D t := by
  cases e with
  | sum ts => exact hD.forall_summandsOf ts (hD.sum.mp h)
  | _ => exact List.forall_mem_singleton.mpr h

/-- The terms of expressions have the property if the expressions have it. -/
theorem forall_summandsOf (hD : IgnoresCoefficients D) (es : List Expr) (h : ∀ e ∈ es, D e) :
    ∀ t ∈ summandsOf es, D t := by
  cases es with
  | nil => exact List.forall_mem_nil D
  | cons e es =>
    obtain ⟨he, hes⟩ := List.forall_mem_cons.mp h
    exact List.forall_mem_append.mpr ⟨hD.forall_summands e he, hD.forall_summandsOf es hes⟩
end

/-- The groups of terms are labelled by expressions with the property. -/
theorem label (hD : IgnoresCoefficients D) (h : ∀ t ∈ ts, D t) {g : Expr × List Rat}
    (hg : g ∈ group (labelled ts)) : D g.1 := by
  obtain ⟨x, hx, heq⟩ := label_mem_group hg
  obtain ⟨t, ht, hlabel⟩ := List.mem_filterMap.mp hx
  obtain ⟨r, hr, rfl⟩ := Option.map_eq_some_iff.mp hlabel
  rw [heq]
  exact hD.rest (h t ht) hr

/-- Merged terms have the property. -/
theorem forall_mergedTerms (hD : IgnoresCoefficients D) (h : ∀ t ∈ ts, D t) :
    ∀ t ∈ mergedTerms ts, D t := by
  refine List.forall_mem_append.mpr ⟨fun t ht => ?_, fun t ht => ?_⟩
  · obtain ⟨g, hg, hm⟩ := List.mem_filterMap.mp ht
    obtain ⟨-, rfl⟩ := mergeLike_eq_some hm
    exact hD.term (hD.label h hg) _
  · split_ifs at ht
    · simp at ht
    · rw [List.mem_singleton.mp ht]
      exact hD.num _

/-- The canonical sum of expressions has the property if they have it. -/
theorem canonicalSum (hD : IgnoresCoefficients D) (h : ∀ t ∈ ts, D t) : D (Canonical.sum ts) := by
  have hm := hD.forall_mergedTerms fun t ht => hD.forall_summandsOf ts h t (List.mem_reverse.mp ht)
  rw [Canonical.sum]
  generalize mergedTerms (summandsOf ts).reverse = us at hm
  rcases us with _ | ⟨t, _ | ⟨u, us⟩⟩
  · exact hD.num 0
  · exact hm t (by simp)
  · exact hD.sum.mpr fun x hx => hm x ((Expr.perm_sort _).mem_iff.mp hx)

end IgnoresCoefficients

section Everywhere

variable {P : Expr → Prop} (hnum : ∀ q, P (num q)) (hsum : ∀ ts, P (.sum ts))
  (hone : ∀ fs, (nonNumbers fs).length ≤ 1 → P (.product fs))
  (hproduct : ∀ fs gs, (nonNumbers gs).Perm (nonNumbers fs) → P (.product fs) → P (.product gs))

include hproduct in
/-- The part beside the coefficient has what its term has everywhere, if at products it depends on
the factors that are no numbers. -/
theorem everywhere_rest {r : Expr} (h : t.Everywhere P) (hr : rest? t = some r) :
    r.Everywhere P := by
  cases t with
  | num q => cases hr
  | product fs =>
    have hfs : ∀ f ∈ nonNumbers fs, f.Everywhere P := fun f hf =>
      h.child (Expr.mem_of_mem_nonNumbers hf)
    have hself : nonNumbers (nonNumbers fs) = nonNumbers fs :=
      Expr.nonNumbers_of_not_isNum fun f => Expr.isNum_of_mem_nonNumbers
    have hP := hproduct fs (nonNumbers fs) (.of_eq hself) h.here
    have hr : Expr.productOf? (nonNumbers fs) = some r := hr
    match nonNumbers fs, hfs, hP, hr with
    | [f], hfs, _, hr => exact Option.some.inj hr ▸ hfs f (by simp)
    | _ :: _ :: _, hfs, hP, hr => exact Option.some.inj hr ▸ .intro hP hfs
  | _ => exact Option.some.inj hr ▸ h

include hnum hone hproduct in
/-- A coefficient changes nothing that holds everywhere, if it holds of numbers, and at products it
depends on the factors that are no numbers and holds if there is only one. -/
theorem everywhere_term {r : Expr} (h : r.Everywhere P) (c : Rat) : (term c r).Everywhere P := by
  unfold term
  split_ifs
  · exact h
  have hp : (Expr.sort (num c :: r.factors)).Perm (num c :: r.factors) := Expr.perm_sort _
  have hcons : nonNumbers (num c :: r.factors) = nonNumbers r.factors :=
    List.filter_cons_of_neg (by simp [isNum])
  have hnon : (nonNumbers (Expr.sort (num c :: r.factors))).Perm (nonNumbers r.factors) :=
    (hp.filter _).trans (.of_eq hcons)
  obtain ⟨hhere, hfactors⟩ : P (.product (Expr.sort (num c :: r.factors))) ∧
      ∀ f ∈ r.factors, f.Everywhere P := by
    cases r with
    | product fs => exact ⟨hproduct fs _ hnon h.here, fun f hf => h.child hf⟩
    | _ =>
      refine ⟨hone _ ?_, by simpa [Expr.factors] using h⟩
      rw [hnon.length_eq]
      exact List.length_filter_le _ _
  refine .intro hhere fun f hf => ?_
  rcases List.mem_cons.mp (hp.mem_iff.mp hf) with rfl | hf
  · exact .intro (hnum c) (by simp)
  · exact hfactors f hf

include hnum hsum hone hproduct in
/-- What holds everywhere does not depend on coefficients, if at numbers and sums it holds anyway,
at products it is up to the factors that are no numbers, and a single one of these is harmless. -/
theorem ignoresCoefficients_everywhere : IgnoresCoefficients (Expr.Everywhere P) where
  num q := .intro (hnum q) (by simp)
  sum {ts} := ⟨fun h _ ht => h.child ht, .intro (hsum ts)⟩
  rest h hr := everywhere_rest hproduct h hr
  term h c := everywhere_term hnum hone hproduct h c

end Everywhere

/-! ## Linear forms -/

/-- The form is linear on the expressions that have the property. -/
structure IsLinear (D : Expr → Prop) (f : Expr → Rat) : Prop where
  domain : IgnoresCoefficients D
  num (q : Rat) : f (num q) = q * f (num 1)
  term {r : Expr} (hr : r.IsMonic) (h : D r) (c : Rat) : f (term c r) = c * f r
  sum {ts : List Expr} (ht : AreTerms ts) (h : ∀ t ∈ ts, D t) : f (.sum ts) = (ts.map f).sum

namespace IsLinear

/-- The form adds up over the terms of expressions as over the expressions. -/
theorem sum_summandsOf (hf : IsLinear D f) (h : ∀ t ∈ ts, t.IsSettled ∧ D t) :
    ((summandsOf ts).map f).sum = (ts.map f).sum := by
  induction ts with
  | nil => rfl
  | cons t ts ih =>
    obtain ⟨⟨hs, hd⟩, h⟩ := List.forall_mem_cons.mp h
    have ht : ((summands t).map f).sum = f t := by
      cases t with
      | sum us =>
        obtain ⟨hn, -, hus⟩ := Expr.settled_sum_iff.mp hs
        rw [summands, summandsOf_of_not_isSum hn.not_isSum]
        exact (hf.sum (fun u hu => ⟨hus u hu, hn.not_isSum u hu⟩) (hf.domain.sum.mp hd)).symm
      | _ => exact List.sum_singleton
    rw [summandsOf, List.map_append, List.sum_append, ht, ih h, List.map_cons, List.sum_cons]

/-- The form takes the coefficient out of a term that is no number. -/
theorem coefficient_mul
    (hf : IsLinear D f) (ht : t.IsSettled ∧ t.isSum = false) (hn : t.isNum = false) (hd : D t) :
    D (labelOf t).1 ∧ (labelOf t).2 * f (labelOf t).1 = f t := by
  obtain ⟨hr, -, hrest, heq⟩ := labelOf_spec ht hn
  have h := hf.domain.rest hd hrest
  refine ⟨h, ?_⟩
  rw [← hf.term hr h, heq]

/-- What merges from groups of terms adds up to the groups. -/
theorem sum_mergeLike (hf : IsLinear D f) {gs : List (Expr × List Rat)}
    (h : ∀ g ∈ gs, g.1.IsMonic ∧ D g.1) : ((gs.filterMap mergeLike).map f).sum =
      (gs.map fun g => (g.2.map fun c => c * f g.1).sum).sum := by
  induction gs with
  | nil => rfl
  | cons g gs ih =>
    obtain ⟨⟨hr, hd⟩, h⟩ := List.forall_mem_cons.mp h
    -- This is the distributive law.
    have htotal : (g.2.map fun c => c * f g.1).sum = totalOf g.2 * f g.1 := by
      rw [List.sum_map_mul_right, List.map_id', totalOf_eq_sum]
    rw [List.map_cons, List.sum_cons, htotal, ← ih h]
    cases hm : mergeLike g with
    | none =>
      have h0 : totalOf g.2 = 0 := by
        by_contra hc
        simp [mergeLike, hc] at hm
      rw [List.filterMap_cons_none hm, h0, zero_mul, zero_add]
    | some t =>
      obtain ⟨-, rfl⟩ := mergeLike_eq_some hm
      rw [List.filterMap_cons_some hm, List.map_cons, List.sum_cons, hf.term hr hd]

/-- Numbers and other expressions add up to all of them. -/
theorem sum_numbers_add (hf : IsLinear D f) (ts : List Expr) :
    (ts.filterMap Expr.value?).sum * f (Expr.num 1) + ((nonNumbers ts).map f).sum =
      (ts.map f).sum := by
  induction ts with
  | nil => simp [nonNumbers]
  | cons t ts ih =>
    rw [List.map_cons, List.sum_cons, ← ih]
    cases hn : t.isNum with
    | true =>
      obtain ⟨q, rfl⟩ := Expr.exists_eq_num hn
      have hval : Expr.value? (.num q) = some q := rfl
      rw [List.filterMap_cons_some hval, List.sum_cons, nonNumbers,
        List.filter_cons_of_neg (by simp [isNum]), ← nonNumbers, hf.num q]
      ring
    | false =>
      have hval : Expr.value? t = none := by
        cases t with
        | num q => cases hn
        | _ => rfl
      rw [List.filterMap_cons_none hval, nonNumbers, List.filter_cons_of_pos (by simp [hn]),
        ← nonNumbers, List.map_cons, List.sum_cons]
      ring

/-- Merged terms add up to the terms. -/
theorem sum_mergedTerms (hf : IsLinear D f) (h : AreTerms ts) (hd : ∀ t ∈ ts, D t) :
    ((mergedTerms ts).map f).sum = (ts.map f).sum := by
  have hgroups : ∀ g ∈ group (labelled ts), g.1.IsMonic ∧ D g.1 := fun g hg =>
    ⟨isMonic_of_mem_group h hg, hf.domain.label hd hg⟩
  have hsum := sum_group (hasKeyedLabels_labelled h) fun x : Expr × Rat => x.2 * f x.1
  -- Group by group the terms add up to those that are no numbers.
  have hterms : (labelled ts).map (fun x => x.2 * f x.1) = (nonNumbers ts).map f := by
    rw [labelled_eq_map h, List.map_map]
    refine List.map_congr_left fun t ht => ?_
    have hmem := Expr.mem_of_mem_nonNumbers ht
    exact (hf.coefficient_mul (h t hmem) (Expr.isNum_of_mem_nonNumbers ht) (hd t hmem)).2
  have hnum : ∀ c : Rat, ((if c = 0 then ([] : List Expr) else [.num c]).map f).sum =
      c * f (Expr.num 1) := by
    intro c
    split_ifs with hc
    · simp [hc]
    · rw [List.map_singleton, List.sum_singleton, hf.num]
  rw [mergedTerms, List.map_append, List.sum_append, hf.sum_mergeLike hgroups, hsum, hterms, hnum,
    totalOf_eq_sum, numberTerms_eq_filterMap h, add_comm, hf.sum_numbers_add]

/-- The form of a canonical sum is the sum of those of the expressions. -/
theorem canonicalSum (hf : IsLinear D f) (h : ∀ t ∈ ts, t.IsSettled ∧ D t) :
    f (Canonical.sum ts) = (ts.map f).sum := by
  have hterms := areTerms_reverse fun t ht => (h t ht).1
  have hd : ∀ t ∈ (summandsOf ts).reverse, D t := fun t ht =>
    hf.domain.forall_summandsOf ts (fun t ht => (h t ht).2) t (List.mem_reverse.mp ht)
  have hm := areTerms_mergedTerms hterms
  have hmd := hf.domain.forall_mergedTerms hd
  have hsum := hf.sum_mergedTerms hterms hd
  rw [List.map_reverse, List.sum_reverse, hf.sum_summandsOf h] at hsum
  rw [Canonical.sum, ← hsum]
  generalize mergedTerms (summandsOf ts).reverse = us at hm hmd
  rcases us with _ | ⟨t, _ | ⟨u, us⟩⟩
  · rw [sumOf, hf.num, zero_mul]
    rfl
  · exact List.sum_singleton.symm
  · have hp : (Expr.sort (t :: u :: us)).Perm (t :: u :: us) := Expr.perm_sort _
    rw [sumOf, hf.sum (fun x hx => hm x (hp.mem_iff.mp hx)) fun x hx => hmd x (hp.mem_iff.mp hx)]
    · exact (hp.map f).sum_eq
    · simp
    · simp

end IsLinear
end StackAlgebra.Canonical
