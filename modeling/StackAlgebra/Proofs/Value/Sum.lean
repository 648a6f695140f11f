import StackAlgebra.Proofs.Value.Evaluation
import StackAlgebra.Proofs.NormalForm.Linear
import StackAlgebra.Proofs.Expr.Measured

/-!
# Values of canonical sums

The canonical sum of settled expressions that have values has a value, the sum of these
(`sum_sound`), as the value is a linear form (`isLinear_value`). Expressions with values can always
be put in order, since there are no functions of angles in them (`HasValue.isMeasured`).
-/

namespace StackAlgebra

namespace Expr

variable {v : Valuation} {e : Expr}

/-- The children of an expression with a value are rational expressions with values, or integers. -/
theorem HasValue.child (h : e.HasValue v) : ∀ c ∈ e.children, c.HasValue v := by
  cases e with
  | sum ts => exact hasValue_sum_iff.mp h
  | product fs => exact hasValue_product_iff.mp h
  | num _ | const _ | var _ => simp
  | power b e =>
    obtain ⟨k, rfl, hb, -⟩ := eval_power_eq_some_iff.mp h.eval_eq
    simpa using ⟨hb, hasValue_num _⟩
  | unary f x => simpa using (eval_unary_eq_some_iff.mp h.eval_eq).1
  | mod x d =>
    obtain ⟨hx, hd, -⟩ := eval_mod_eq_some_iff.mp h.eval_eq
    simpa using ⟨hx, hd⟩
  | log _ _ | angle _ _ _ => cases h

/-- Where there is a value there are no functions of angles, so that none lacks its measure. -/
theorem HasValue.isMeasured (h : e.HasValue v) : e.IsMeasured := by
  induction e using induction_on_children with
  | step e ih =>
    refine .intro ?_ fun c hc => ih c hc (h.child c hc)
    cases e with
    | angle _ _ _ => cases h
    | _ => trivial

/-- An expression has a value exactly if its factors have, and it is their product. -/
theorem hasValue_factors_iff : (∀ f ∈ e.factors, f.HasValue v) ↔ e.HasValue v := by
  cases e with
  | product fs => exact hasValue_product_iff.symm
  | _ => simp [factors]

/-- The value of an expression is the product of those of its factors. -/
theorem prod_factors (h : e.HasValue v) : (e.factors.map (value v)).prod = e.value v := by
  cases e with
  | product fs => exact (value_product (hasValue_product_iff.mp h)).symm
  | _ => simp [factors]

end Expr

namespace Canonical

open StackAlgebra.Expr (num nonNumbers isNum value HasValue)

variable {v : Valuation} {r : Expr} {ts : List Expr}

/-- The value of a term. -/
theorem value_term (hr : r.IsMonic) (h : r.HasValue v) (c : Rat) :
    (term c r).value v = c * r.value v := by
  by_cases hc : c = 1
  · rw [term, if_pos hc, hc, one_mul]
  · have hf := Expr.hasValue_factors_iff.mpr h
    rw [hr.term_of_ne_one hc, Expr.value_product, List.map_cons, List.prod_cons,
      Expr.prod_factors h]
    · rfl
    · exact List.forall_mem_cons.mpr ⟨Expr.hasValue_num c, hf⟩

/-- Whether a term has a value does not depend on its coefficient. -/
theorem ignoresCoefficients_hasValue (v : Valuation) : IgnoresCoefficients (HasValue v) where
  num := Expr.hasValue_num
  sum := Expr.hasValue_sum_iff
  rest {t r} h hr := by
    cases t with
    | num q => cases hr
    | product fs =>
      have hfs : ∀ f ∈ nonNumbers fs, f.HasValue v := fun f hf =>
        Expr.hasValue_product_iff.mp h f (Expr.mem_of_mem_nonNumbers hf)
      have hr : Expr.productOf? (nonNumbers fs) = some r := hr
      match nonNumbers fs, hfs, hr with
      | [f], hfs, hr =>
        rw [← Option.some.inj hr]
        exact hfs f (by simp)
      | _ :: _ :: _, hfs, hr =>
        rw [← Option.some.inj hr]
        exact Expr.hasValue_product_iff.mpr hfs
    | _ => exact Option.some.inj hr ▸ h
  term {r} h c := by
    unfold term
    split_ifs
    · exact h
    · have hfs := List.forall_mem_cons.mpr ⟨Expr.hasValue_num c, Expr.hasValue_factors_iff.mpr h⟩
      exact Expr.hasValue_product_iff.mpr fun f hf => hfs f ((Expr.perm_sort _).mem_iff.mp hf)

/-- The value is linear on the expressions that have one. -/
theorem isLinear_value (v : Valuation) : IsLinear (HasValue v) (value v) where
  domain := ignoresCoefficients_hasValue v
  num q := by rw [Expr.value_num, Expr.value_num, mul_one]
  term hr h c := value_term hr h c
  sum _ h := Expr.value_sum h

/-- The sum of settled expressions with values has their sum as its value. -/
theorem sum_sound (h : ∀ t ∈ ts, t.IsSettled ∧ t.HasValue v) :
    (sum ts).HasValue v ∧ (sum ts).value v = (ts.map (value v)).sum :=
  ⟨(ignoresCoefficients_hasValue v).canonicalSum fun t ht => (h t ht).2,
    (isLinear_value v).canonicalSum h⟩

end Canonical
end StackAlgebra
