import StackAlgebra.Operator
import StackAlgebra.Proofs.NormalForm.Multiple
import Mathlib.Algebra.Module.Rat

/-!
# Canonical expressions as a rational vector space

Addition, subtraction, negation and multiplication by a rational take stable expressions to stable
expressions, and coordinates to the sums, differences and multiples of them. Stable expressions can
be told from their coordinates, so that the laws of a rational vector space carry over
(`vectorSpaceLaws`). A canonical form need not be stable: where factors with one base are left in a
product, already zero cannot be added without merging them. Where there are none all laws hold
(`add_zero_iff_and_vectorSpaceLaws`).
-/

namespace StackAlgebra

namespace Expr

/-- The canonical form of an expression in which every function of angles has a measure. -/
def IsCanonical (a : Expr) : Prop :=
  ∃ e : Expr, e.IsMeasured ∧ e.simplify = .ok a

/-- A canonical form is stable if the factors of all its products have different bases. -/
theorem IsCanonical.isStable {a : Expr} (h : a.IsCanonical) (hd : a.HasDistinctBases) :
    a.IsStable := by
  obtain ⟨e, hm, he⟩ := h
  exact ⟨settled_simplify he, hd, isMeasured_simplify hm he⟩

/-- The canonical form of a sum is the sum of the canonical forms. -/
theorem simplify_sum {ts rs : List Expr} (h : List.Forall₂ (fun t r => t.simplify = .ok r) ts rs) :
    (sum ts).simplify = Canonical.inOrder (Canonical.sum rs) := by
  show (simplifyAll ts >>= fun rs => Canonical.inOrder (Canonical.sum rs)) = _
  rw [simplifyAll_eq_ok_iff.mpr h]
  rfl

/-- The canonical form of a product is the product of the canonical forms. -/
theorem simplify_product {fs rs : List Expr}
    (h : List.Forall₂ (fun f r => f.simplify = .ok r) fs rs) :
    (product fs).simplify = Canonical.product rs := by
  show (simplifyAll fs >>= fun rs => Canonical.product rs) = _
  rw [simplifyAll_eq_ok_iff.mpr h]
  rfl

/-- The canonical form of a negation is the product of the canonical form with minus one. -/
theorem simplify_neg {x r : Expr} (h : x.simplify = .ok r) :
    (unary .neg x).simplify = Canonical.product [num (-1), r] := by
  show (x.simplify >>= fun r => Canonical.product [num (-1), r]) = _
  rw [h]
  rfl

end Expr

namespace Operator

open StackAlgebra.Expr (num coordinates)
open StackAlgebra.Canonical (HasCoordinates hasCoordinates_sum hasCoordinates_product_num)

variable {a b c : Expr} {x y : Except Error Expr} {f g : Option Expr → Rat} (measure : String)

/-- Both computations come to a result, and it is the same tree. -/
def Agree (x y : Except Error Expr) : Prop :=
  ∃ r, x = .ok r ∧ y = .ok r

/-- Computations with stable results of the same coordinates agree. -/
theorem agree_of_hasCoordinates (hx : HasCoordinates x f) (hy : HasCoordinates y f) :
    Agree x y := by
  obtain ⟨r, hxr, hr, hrf⟩ := hx
  obtain ⟨s, hys, hs, hsf⟩ := hy
  have heq : r = s := Canonical.eq_of_coordinates_eq hr.settled hs.settled (hrf.trans hsf.symm)
  exact ⟨r, hxr, heq ▸ hys⟩

/-- A computation with a stable result of the coordinates of a stable expression comes to that. -/
theorem eq_ok_of_hasCoordinates (ha : a.IsStable) (hx : HasCoordinates x a.coordinates) :
    x = .ok a := by
  obtain ⟨r, hxr, hr, hf⟩ := hx
  rw [hxr, Canonical.eq_of_coordinates_eq hr.settled ha.settled hf]

/-- What a computation comes to can be worked on. -/
theorem hasCoordinates_bind {w : Expr → Except Error Expr} (hx : HasCoordinates x f)
    (h : ∀ r : Expr, r.IsStable → r.coordinates = f → HasCoordinates (w r) g) :
    HasCoordinates (x >>= w) g := by
  obtain ⟨r, rfl, hr, hf⟩ := hx
  exact h r hr hf

/-! ## The operators on coordinates -/

/-- The sum of two operands is simplified. -/
theorem evaluate_add : add.evaluate measure [a, b] = (Expr.sum [a, b]).simplify := rfl

/-- A difference is simplified as a sum with the second operand taken minus one times. -/
theorem evaluate_sub :
    sub.evaluate measure [a, b] = (Expr.sum [a, .product [num (-1), b]]).simplify := rfl

/-- The product of two operands is simplified. -/
theorem evaluate_mul : mul.evaluate measure [a, b] = (Expr.product [a, b]).simplify := rfl

/-- The negated operand is simplified. -/
theorem evaluate_neg : (unary .neg).evaluate measure [a] = (Expr.unary .neg a).simplify := rfl

/-- Addition adds coordinates. -/
theorem hasCoordinates_add (ha : a.IsStable) (hb : b.IsStable) :
    HasCoordinates (add.evaluate measure [a, b]) (a.coordinates + b.coordinates) := by
  have hstable : ∀ t ∈ [a, b], t.IsStable := by simpa using ⟨ha, hb⟩
  have hcoord : ([a, b].map coordinates).sum = a.coordinates + b.coordinates := by simp
  rw [evaluate_add, Expr.simplify_sum (.cons ha.simplify (.cons hb.simplify .nil)), ← hcoord]
  exact hasCoordinates_sum hstable

/-- Multiplication by a rational multiplies coordinates. -/
theorem hasCoordinates_mul (ha : a.IsStable) (p : Rat) :
    HasCoordinates (mul.evaluate measure [num p, a]) (p • a.coordinates) := by
  rw [evaluate_mul, Expr.simplify_product (.cons rfl (.cons ha.simplify .nil))]
  exact hasCoordinates_product_num ha p

/-- Negation negates coordinates. -/
theorem hasCoordinates_neg (ha : a.IsStable) :
    HasCoordinates ((unary .neg).evaluate measure [a]) (-a.coordinates) := by
  rw [evaluate_neg, Expr.simplify_neg ha.simplify, ← neg_one_smul ℚ a.coordinates]
  exact hasCoordinates_product_num ha (-1)

/-- Subtraction subtracts coordinates. -/
theorem hasCoordinates_sub (ha : a.IsStable) (hb : b.IsStable) :
    HasCoordinates (sub.evaluate measure [a, b]) (a.coordinates - b.coordinates) := by
  obtain ⟨r, hr, hrs, hf⟩ := hasCoordinates_product_num hb (-1)
  have hneg : (Expr.product [num (-1), b]).simplify = .ok r := by
    rw [Expr.simplify_product (.cons rfl (.cons hb.simplify .nil)), hr]
  have hstable : ∀ t ∈ [a, r], t.IsStable := by simpa using ⟨ha, hrs⟩
  have hcoord : ([a, r].map coordinates).sum = a.coordinates - b.coordinates := by
    simp [hf, sub_eq_add_neg]
  rw [evaluate_sub, Expr.simplify_sum (.cons ha.simplify (.cons hneg .nil)), ← hcoord]
  exact hasCoordinates_sum hstable

/-! ## The laws -/

/-- The laws of a rational vector space, as equalities of trees. -/
structure VectorSpaceLaws (measure : String) (a b c : Expr) (p q : Rat) : Prop where
  add_assoc : Agree (do add.evaluate measure [← add.evaluate measure [a, b], c])
    (do add.evaluate measure [a, ← add.evaluate measure [b, c]])
  add_comm : Agree (add.evaluate measure [a, b]) (add.evaluate measure [b, a])
  add_zero : add.evaluate measure [a, num 0] = .ok a
  sub_self : sub.evaluate measure [a, a] = .ok (num 0)
  sub_add_cancel : (do add.evaluate measure [← sub.evaluate measure [a, b], b]) = .ok a
  neg_neg : (do (unary .neg).evaluate measure [← (unary .neg).evaluate measure [a]]) = .ok a
  mul_mul : Agree (do mul.evaluate measure [num p, ← mul.evaluate measure [num q, a]])
    (mul.evaluate measure [num (p * q), a])
  mul_add : Agree (do mul.evaluate measure [num p, ← add.evaluate measure [a, b]])
    (do add.evaluate measure [← mul.evaluate measure [num p, a], ← mul.evaluate measure [num p, b]])
  add_mul : Agree (mul.evaluate measure [num (p + q), a])
    (do add.evaluate measure [← mul.evaluate measure [num p, a], ← mul.evaluate measure [num q, a]])

/-- Sums of multiples add up the multiples of coordinates. -/
theorem hasCoordinates_add_mul_mul (ha : a.IsStable) (hb : b.IsStable) (p q : Rat) : HasCoordinates
    (do add.evaluate measure [← mul.evaluate measure [num p, a], ← mul.evaluate measure [num q, b]])
    (p • a.coordinates + q • b.coordinates) := by
  refine hasCoordinates_bind (hasCoordinates_mul measure ha p) fun r hr hrf => ?_
  refine hasCoordinates_bind (hasCoordinates_mul measure hb q) fun s hs hsf => ?_
  rw [← hrf, ← hsf]
  exact hasCoordinates_add measure hr hs

/-- Stable expressions obey the laws of a rational vector space, since their coordinates do. -/
theorem vectorSpaceLaws (ha : a.IsStable) (hb : b.IsStable) (hc : c.IsStable) (p q : Rat) :
    VectorSpaceLaws measure a b c p q where
  add_assoc := by
    refine agree_of_hasCoordinates (f := a.coordinates + b.coordinates + c.coordinates) ?_ ?_
    · refine hasCoordinates_bind (hasCoordinates_add measure ha hb) fun r hr hf => ?_
      rw [← hf]
      exact hasCoordinates_add measure hr hc
    · refine hasCoordinates_bind (hasCoordinates_add measure hb hc) fun r hr hf => ?_
      rw [add_assoc, ← hf]
      exact hasCoordinates_add measure ha hr
  add_comm := by
    refine agree_of_hasCoordinates (hasCoordinates_add measure ha hb) ?_
    rw [add_comm]
    exact hasCoordinates_add measure hb ha
  add_zero := by
    refine eq_ok_of_hasCoordinates ha ?_
    have h := hasCoordinates_add measure ha (Expr.isStable_num 0)
    rwa [Canonical.coordinates_zero, add_zero] at h
  sub_self := by
    refine eq_ok_of_hasCoordinates (Expr.isStable_num 0) ?_
    rw [Canonical.coordinates_zero, ← sub_self a.coordinates]
    exact hasCoordinates_sub measure ha ha
  sub_add_cancel := by
    refine eq_ok_of_hasCoordinates ha ?_
    refine hasCoordinates_bind (hasCoordinates_sub measure ha hb) fun r hr hf => ?_
    rw [← sub_add_cancel a.coordinates b.coordinates, ← hf]
    exact hasCoordinates_add measure hr hb
  neg_neg := by
    refine eq_ok_of_hasCoordinates ha ?_
    refine hasCoordinates_bind (hasCoordinates_neg measure ha) fun r hr hf => ?_
    rw [← neg_neg a.coordinates, ← hf]
    exact hasCoordinates_neg measure hr
  mul_mul := by
    refine agree_of_hasCoordinates ?_ (hasCoordinates_mul measure ha (p * q))
    refine hasCoordinates_bind (hasCoordinates_mul measure ha q) fun r hr hf => ?_
    rw [mul_smul, ← hf]
    exact hasCoordinates_mul measure hr p
  mul_add := by
    refine agree_of_hasCoordinates ?_ (hasCoordinates_add_mul_mul measure ha hb p p)
    refine hasCoordinates_bind (hasCoordinates_add measure ha hb) fun r hr hf => ?_
    rw [← smul_add, ← hf]
    exact hasCoordinates_mul measure hr p
  add_mul := by
    refine agree_of_hasCoordinates (hasCoordinates_mul measure ha (p + q)) ?_
    rw [add_smul]
    exact hasCoordinates_add_mul_mul measure ha ha p q

/-! ## Canonical expressions -/

/-- What zero can be added to without a change is its own canonical form. -/
theorem simplify_of_add_zero (ha : a.IsSettled) (h : add.evaluate measure [a, num 0] = .ok a) :
    a.simplify = .ok a := by
  rw [evaluate_add] at h
  obtain ⟨rs, hrs, h⟩ := Canonical.bind_eq_ok_iff.mp h
  obtain ⟨s, zs, hs, hzs, rfl⟩ :=
    List.forall₂_cons_left_iff.mp (Expr.simplifyAll_eq_ok_iff.mp hrs)
  obtain ⟨z, _, hz, hnil, rfl⟩ := List.forall₂_cons_left_iff.mp hzs
  rw [List.forall₂_nil_left_iff.mp hnil, ← Except.ok.inj hz] at h
  obtain ⟨heq, -⟩ := Canonical.inOrder_eq_ok_iff.mp h
  -- The canonical form has the coordinates of the expression, as zero adds nothing to them.
  have hsettled := Expr.settled_simplify hs
  have hcoord : a.coordinates = s.coordinates := by
    funext k
    have hterms : ∀ t ∈ [s, num 0], t.IsSettled := by simpa using ⟨hsettled, Expr.settled_num 0⟩
    rw [heq, Canonical.coordinates_sum hterms]
    simp [Canonical.coordinates_zero]
  rw [hs, Canonical.eq_of_coordinates_eq ha hsettled hcoord]

/-- The laws of a rational vector space hold for canonical expressions in whose products the bases
are different. In any other zero cannot be added without a change. -/
theorem add_zero_iff_and_vectorSpaceLaws (ha : a.IsCanonical) (hb : b.IsCanonical)
    (hc : c.IsCanonical) (p q : Rat) :
    (add.evaluate measure [a, num 0] = .ok a ↔ a.HasDistinctBases) ∧
      (a.HasDistinctBases → b.HasDistinctBases → c.HasDistinctBases →
        VectorSpaceLaws measure a b c p q) := by
  constructor
  · constructor
    · intro h
      obtain ⟨e, -, he⟩ := ha
      have hs := Expr.settled_simplify he
      exact (Expr.simplify_eq_self_iff hs).mp (simplify_of_add_zero measure hs h)
    · intro hd
      have hstable := ha.isStable hd
      exact (vectorSpaceLaws measure hstable hstable hstable 0 0).add_zero
  · exact fun hda hdb hdc =>
      vectorSpaceLaws measure (ha.isStable hda) (hb.isStable hdb) (hc.isStable hdc) p q

/-- The laws hold for a sum, a multiple of a variable and a number, with multiples that cancel. -/
theorem add_zero_iff_and_vectorSpaceLaws_linear :
    (Expr.sum [.var "x", .var "y"]).IsCanonical ∧ (Expr.product [num 2, .var "x"]).IsCanonical ∧
      add.evaluate "deg" [.sum [.var "x", .var "y"], num 0] = .ok (.sum [.var "x", .var "y"]) ∧
      VectorSpaceLaws "deg" (.sum [.var "x", .var "y"]) (.product [num 2, .var "x"]) (num 3)
        (1 / 2) (-1 / 2) := by
  have hvar (x : String) : (Expr.var x).simplify = .ok (.var x) := rfl
  have hxy : (Expr.sum [.var "y", .var "x"]).simplify = .ok (.sum [.var "x", .var "y"]) := by
    rw [Expr.simplify_sum (.cons (hvar "y") (.cons (hvar "x") .nil))]
    with_unfolding_all rfl
  have hxx : (Expr.sum [.var "x", .var "x"]).simplify = .ok (.product [num 2, .var "x"]) := by
    rw [Expr.simplify_sum (.cons (hvar "x") (.cons (hvar "x") .nil))]
    with_unfolding_all rfl
  have ha : (Expr.sum [.var "x", .var "y"]).IsCanonical := ⟨_, by simp, hxy⟩
  have hb : (Expr.product [num 2, .var "x"]).IsCanonical := ⟨_, by simp, hxx⟩
  have hc : (num 3).IsCanonical := ⟨num 3, by simp, rfl⟩
  -- The only product among them has a single base.
  have leaf {e : Expr} (h : e.children = []) (hn : e.isProduct = false) : e.HasDistinctBases := by
    refine .intro ?_ (by simp [h])
    cases e with
    | product fs => cases hn
    | _ => trivial
  have hda : (Expr.sum [.var "x", .var "y"]).HasDistinctBases :=
    .intro trivial (.pair (leaf rfl rfl) (leaf rfl rfl))
  have hdb : (Expr.product [num 2, .var "x"]).HasDistinctBases :=
    .intro (List.pairwise_singleton _ _) (.pair (leaf rfl rfl) (leaf rfl rfl))
  have h := add_zero_iff_and_vectorSpaceLaws "deg" ha hb hc (1 / 2) (-1 / 2)
  exact ⟨ha, hb, h.1.mpr hda, h.2 hda hdb (leaf rfl rfl)⟩

/-- The canonical form of `unmerged` changes when zero is added to it. -/
theorem add_zero_unmerged : ∃ a : Expr, Expr.unmerged.IsMeasured ∧ Expr.unmerged.simplify = .ok a ∧
    add.evaluate "rad" [a, num 0] ≠ .ok a := by
  refine ⟨_, by simp [Expr.unmerged], Expr.simplify_unmerged, fun h => ?_⟩
  have hs := Expr.settled_simplify Expr.simplify_unmerged
  have hd := (Expr.simplify_eq_self_iff hs).mp (simplify_of_add_zero "rad" hs h)
  exact Expr.not_hasDistinctBases_unmerged hd

end Operator
end StackAlgebra
