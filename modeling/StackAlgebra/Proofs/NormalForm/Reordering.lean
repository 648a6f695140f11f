import StackAlgebra.Proofs.NormalForm.Simplify

/-!
# The canonical form does not depend on the order

Expressions that are equal up to the order of terms and factors at any depth have one canonical
form, with one stored order at every node, or none of them has any (`simplify_of_same`). The proof
goes along the reordering: terms and factors that are matched in pairs have the same canonical
forms, so that a sum or product is asked for with the same canonical forms in another order, and
neither depends on that.
-/

namespace StackAlgebra.Expr

open scoped List

variable {a b r : Expr} {es ds rs : List Expr}

/-- Expressions matched in pairs have the same canonical forms in another order, if those in each
pair have. -/
theorem exists_perm_simplified {pairs : List (Expr × Expr)} (hes : es ~ pairs.map Prod.fst)
    (hds : ds ~ pairs.map Prod.snd)
    (h : ∀ p ∈ pairs, ∀ r, p.1.simplify = .ok r → p.2.simplify = .ok r)
    (hrs : List.Forall₂ (fun e r => e.simplify = .ok r) es rs) :
    ∃ qs, List.Forall₂ (fun e r => e.simplify = .ok r) ds qs ∧ rs ~ qs := by
  -- The results are first put in the order of the pairs, and then in that of the other list.
  obtain ⟨ps, hps, hpr⟩ := List.perm_comp_forall₂ hes.symm hrs
  have hpair : List.Forall₂ (fun e r => e.simplify = .ok r) (pairs.map Prod.snd) ps := by
    rw [List.forall₂_map_left_iff] at hps ⊢
    exact Canonical.forall₂_imp_of_mem hps h
  obtain ⟨qs, hqs, hqp⟩ := List.perm_comp_forall₂ hds hpair
  exact ⟨qs, hqs, (hqp.trans hpr).symm⟩

/-- A reordered expression has the same canonical form. -/
theorem Reordered.simplify_eq_ok (h : Reordered a b) (hr : a.simplify = .ok r) :
    b.simplify = .ok r := by
  induction h generalizing r with
  | num q | const c | var x => exact hr
  | @sum ts us pairs hts hus _ ih =>
    cases simplify_eq_ok_iff.mp hr with
    | @sum _ rs hrs ho =>
      obtain ⟨qs, hqs, hp⟩ := exists_perm_simplified hts hus (fun p hp r hr => ih p hp hr) hrs
      have hsum : Canonical.sum rs = Canonical.sum qs :=
        Canonical.sum_perm (settled_of_forall₂ hrs) hp
      rw [hsum] at ho ⊢
      exact simplify_eq_ok_iff.mpr (.sum hqs ho)
  | @product fs gs pairs hfs hgs _ ih =>
    cases simplify_eq_ok_iff.mp hr with
    | @product _ rs _ hrs hr =>
      obtain ⟨qs, hqs, hp⟩ := exists_perm_simplified hfs hgs (fun p hp r hr => ih p hp hr) hrs
      exact simplify_eq_ok_iff.mpr
        (.product hqs (Canonical.product_perm (settled_of_forall₂ hrs) hp hr))
  | power _ _ ihb ihe =>
    cases simplify_eq_ok_iff.mp hr with
    | power hb he hr => exact simplify_eq_ok_iff.mpr (.power (ihb hb) (ihe he) hr)
  | unary f _ ih =>
    cases simplify_eq_ok_iff.mp hr with
    | unary hx hr => exact simplify_eq_ok_iff.mpr (.unary (ih hx) hr)
  | log _ _ ihx ihb =>
    cases simplify_eq_ok_iff.mp hr with
    | log hx hb hr => exact simplify_eq_ok_iff.mpr (.log (ihx hx) (ihb hb) hr)
  | mod _ _ ihx ihd =>
    cases simplify_eq_ok_iff.mp hr with
    | mod hx hd hr => exact simplify_eq_ok_iff.mpr (.mod (ihx hx) (ihd hd) hr)
  | angle f m _ ih =>
    cases simplify_eq_ok_iff.mp hr with
    | angle hx hr => exact simplify_eq_ok_iff.mpr (.angle (ih hx) hr)

/-- Expressions that are the same have one canonical form, or none of them has any. -/
theorem simplify_of_same (h : a.same b = true) :
    (∃ r, a.simplify = .ok r ∧ b.simplify = .ok r) ∨
      (∃ ε, a.simplify = .error ε) ∧ ∃ ε, b.simplify = .error ε := by
  have hab := same_iff_reordered.mp h
  have hba : Reordered b a := reordered_of_key_eq hab.key_eq.symm
  cases ha : a.simplify with
  | ok r => exact .inl ⟨r, rfl, hab.simplify_eq_ok ha⟩
  | error ε =>
    right
    refine ⟨⟨ε, rfl⟩, ?_⟩
    cases hb : b.simplify with
    | error δ => exact ⟨δ, rfl⟩
    | ok r =>
      rw [hba.simplify_eq_ok hb] at ha
      cases ha

/-- Terms and factors can be exchanged inside and outside, and the canonical form has them in
canonical order. -/
theorem simplify_of_same_nested :
    (product [var "x", sum [num 1, power (var "x") (num 2)]]).simplify =
        .ok (product [var "x", sum [num 1, power (var "x") (num 2)]]) ∧
      (product [sum [power (var "x") (num 2), num 1], var "x"]).simplify =
        .ok (product [var "x", sum [num 1, power (var "x") (num 2)]]) := by
  have hpower : (power (var "x") (num 2)).simplify = .ok (power (var "x") (num 2)) := by
    refine simplify_eq_ok_iff.mpr (.power (.refl _) (.refl _) ?_)
    rw [Canonical.power_eq]
    with_unfolding_all rfl
  have hterms : List.Forall₂ (fun e r => e.simplify = .ok r) [num 1, power (var "x") (num 2)]
      [num 1, power (var "x") (num 2)] := .cons rfl (.cons hpower .nil)
  have hsum : (sum [num 1, power (var "x") (num 2)]).simplify =
      .ok (sum [num 1, power (var "x") (num 2)]) := by
    have hsorted : Canonical.sum [num 1, power (var "x") (num 2)] =
        sum [num 1, power (var "x") (num 2)] := by with_unfolding_all rfl
    have horder : (Canonical.sum [num 1, power (var "x") (num 2)]).hasOrder = true := by
      with_unfolding_all rfl
    exact (simplify_eq_ok_iff.mpr (.sum hterms horder)).trans (congrArg Except.ok hsorted)
  have hself : (product [var "x", sum [num 1, power (var "x") (num 2)]]).simplify =
      .ok (product [var "x", sum [num 1, power (var "x") (num 2)]]) := by
    refine simplify_eq_ok_iff.mpr (.product (.cons rfl (.cons hsum .nil)) ?_)
    rw [Canonical.product_eq]
    with_unfolding_all rfl
  have hsame : (product [var "x", sum [num 1, power (var "x") (num 2)]]).same
      (product [sum [power (var "x") (num 2), num 1], var "x"]) = true := by decide
  rcases simplify_of_same hsame with ⟨r, hr, hother⟩ | ⟨⟨ε, hfail⟩, -⟩
  · rw [hself] at hr
    exact ⟨hself, hother.trans hr.symm⟩
  · rw [hself] at hfail
    cases hfail
end StackAlgebra.Expr
