import StackAlgebra.Proofs.Operator.VectorSpace
import StackAlgebra.Proofs.NormalForm.Inverse

/-!
# Division of canonical expressions

A stable expression other than zero, without powers of zero, divided by itself is one, and it is the
reciprocal of its reciprocal. The exception is a rational over a sum: its reciprocal distributes the
inverse of the rational over the sum, and the sum that comes out has another base than the
denominator (`divisionCancels_iff`).
-/

namespace StackAlgebra

namespace Expr

/-- No power in the expression has the base zero. -/
def HasNoZeroBase (a : Expr) : Prop :=
  a.Everywhere fun n => ∀ e, n ≠ power (num 0) e

/-- An expression other than a power of zero has no power of zero if its children have none. -/
theorem hasNoZeroBase_iff_children (a : Expr) (h : ∀ e, a ≠ power (num 0) e) :
    a.HasNoZeroBase ↔ ∀ c ∈ a.children, c.HasNoZeroBase :=
  Everywhere.iff_children.trans (and_iff_right h)

/-- A number is no power of zero. -/
@[simp] theorem hasNoZeroBase_num (q : Rat) : (num q).HasNoZeroBase :=
  (hasNoZeroBase_iff_children (num q) (by simp)).mpr (List.forall_mem_nil _)

/-- A variable is no power of zero. -/
@[simp] theorem hasNoZeroBase_var (x : String) : (var x).HasNoZeroBase :=
  (hasNoZeroBase_iff_children (var x) (by simp)).mpr (List.forall_mem_nil _)

/-- A sum has no power of zero if no term has one. -/
@[simp] theorem hasNoZeroBase_sum_iff {ts : List Expr} :
    (sum ts).HasNoZeroBase ↔ ∀ t ∈ ts, t.HasNoZeroBase :=
  hasNoZeroBase_iff_children (sum ts) (by simp)

/-- A product has no power of zero if no factor has one. -/
@[simp] theorem hasNoZeroBase_product_iff {fs : List Expr} :
    (product fs).HasNoZeroBase ↔ ∀ f ∈ fs, f.HasNoZeroBase :=
  hasNoZeroBase_iff_children (product fs) (by simp)

/-- A power has none if it is none itself and neither base nor exponent has one. -/
@[simp] theorem hasNoZeroBase_power_iff {b e : Expr} :
    (power b e).HasNoZeroBase ↔ b ≠ num 0 ∧ b.HasNoZeroBase ∧ e.HasNoZeroBase := by
  refine Everywhere.iff_children.trans (and_congr ?_ (by simp; rfl))
  simp

/-- Without powers of zero no factor has the base zero. -/
theorem HasNoZeroBase.base_ne {a : Expr} (h : a.HasNoZeroBase) :
    ∀ f ∈ nonNumbers a.factors, f.base ≠ num 0 := by
  intro f hf
  have hmem := mem_of_mem_nonNumbers hf
  have hfactor : f.HasNoZeroBase := by
    cases a with
    | product fs => exact hasNoZeroBase_product_iff.mp h f hmem
    | _ => exact List.mem_singleton.mp hmem ▸ h
  cases f with
  | power b e => exact (hasNoZeroBase_power_iff.mp hfactor).1
  | num q => cases isNum_of_mem_nonNumbers hf
  | _ => nofun

/-- The canonical form of a reciprocal is the canonical form to minus one. -/
theorem simplify_recip {x r : Expr} (h : x.simplify = .ok r) :
    (unary .recip x).simplify = Canonical.power r (num (-1)) := by
  show (x.simplify >>= fun r => Canonical.power r (num (-1))) = _
  rw [h]
  rfl

/-- The canonical form of a power is the power of the canonical forms. -/
theorem simplify_power {x e r s : Expr} (hx : x.simplify = .ok r) (he : e.simplify = .ok s) :
    (power x e).simplify = Canonical.power r s := by
  show (x.simplify >>= fun r => e.simplify >>= Canonical.power r) = _
  rw [hx, he]
  rfl

end Expr

namespace Operator

open StackAlgebra.Expr (num)

variable {a r : Expr} (measure : String)

/-- The expression divided by itself and the product with its reciprocal are one, and it is the
reciprocal of its reciprocal. -/
structure DivisionCancels (measure : String) (a : Expr) : Prop where
  div_self : div.evaluate measure [a, a] = .ok (num 1)
  mul_recip : (do mul.evaluate measure [a, ← (unary .recip).evaluate measure [a]]) = .ok (num 1)
  recip_recip : (do (unary .recip).evaluate measure [← (unary .recip).evaluate measure [a]]) = .ok a

/-- The reciprocal is simplified. -/
theorem evaluate_recip : (unary .recip).evaluate measure [a] = (Expr.unary .recip a).simplify := rfl

/-- An operand other than zero, divided by itself, is multiplied by its reciprocal. -/
theorem evaluate_div (h : a ≠ num 0) :
    div.evaluate measure [a, a] = (Expr.product [a, .power a (num (-1))]).simplify := by
  refine if_neg fun hz => h ?_
  cases a with
  | num q => simpa [Expr.isZero] using hz
  | _ => cases hz

/-- The reciprocal of a stable expression is its power to minus one. -/
theorem evaluate_recip_of_isStable (ha : a.IsStable) :
    (unary .recip).evaluate measure [a] = Canonical.power a (num (-1)) := by
  rw [evaluate_recip, Expr.simplify_recip ha.simplify]

/-- Dividing a stable expression by itself multiplies it with its reciprocal. -/
theorem evaluate_div_self (ha : a.IsStable) (h0 : a ≠ num 0)
    (hr : Canonical.power a (num (-1)) = .ok r) :
    div.evaluate measure [a, a] = Canonical.product [a, r] := by
  have hpower : (Expr.power a (num (-1))).simplify = .ok r := by
    rw [Expr.simplify_power ha.simplify rfl, hr]
  rw [evaluate_div measure h0, Expr.simplify_product (.cons ha.simplify (.cons hpower .nil))]

/-- Division cancels for a canonical expression in whose products the bases are different, other
than zero and without powers of zero, exactly if it is no rational other than one over a sum. -/
theorem divisionCancels_iff (ha : a.IsCanonical) (hd : a.HasDistinctBases) (hz : a.HasNoZeroBase)
    (h0 : a ≠ num 0) : DivisionCancels measure a ↔ ¬a.IsNumberOverSum := by
  have hs := ha.isStable hd
  constructor
  -- Over a sum the reciprocal exists, but its sum is another base than the denominator.
  · intro h hsum
    obtain ⟨r, hr, -, hone⟩ := Canonical.product_reciprocal_ne_one hs hsum
    exact hone ((evaluate_div_self measure hs h0 hr).symm.trans h.div_self)
  · intro hsum
    obtain ⟨r, hr, hrs, hone, hback⟩ := Canonical.exists_reciprocal hs h0 hz.base_ne hsum
    have hrecip : (unary .recip).evaluate measure [a] = .ok r := by
      rw [evaluate_recip_of_isStable measure hs, hr]
    refine ⟨?_, ?_, ?_⟩
    · rw [evaluate_div_self measure hs h0 hr, hone]
    · rw [hrecip]
      show mul.evaluate measure [a, r] = _
      rw [evaluate_mul, Expr.simplify_product (.cons hs.simplify (.cons hrs.simplify .nil)), hone]
    · rw [hrecip]
      show (unary .recip).evaluate measure [r] = _
      rw [evaluate_recip_of_isStable measure hrs, hback]

/-! ## Quotients by a sum -/

/-- The product of the factors over the sum of two variables. -/
def overSum (fs : List Expr) : Expr :=
  .product (fs ++ [.power (.sum [.var "x", .var "y"]) (num (-1))])

/-- The sum of two variables is stable. -/
theorem isStable_sum_var : (Expr.sum [.var "x", .var "y"]).IsStable := by
  have hvar (x : String) : (Expr.var x).simplify = .ok (.var x) := rfl
  have hsum : (Expr.sum [.var "x", .var "y"]).simplify = .ok (.sum [.var "x", .var "y"]) := by
    rw [Expr.simplify_sum (.cons (hvar "x") (.cons (hvar "y") .nil))]
    with_unfolding_all rfl
  have hs := Expr.settled_simplify hsum
  exact ⟨hs, (Expr.simplify_eq_self_iff hs).mp hsum, by simp⟩

/-- The product of two variables is stable. -/
theorem isStable_product_var : (Expr.product [.var "x", .var "y"]).IsStable := by
  have hs : (Canonical.productOf 1 [.var "x", .var "y"]).IsStable := by
    refine Canonical.stable_productOf ?_ ?_ ?_ ?_ rfl
    · simp [Expr.isNum]
    · simp [Expr.isProduct]
    · simpa using ⟨Expr.isStable_var "x", Expr.isStable_var "y"⟩
    · exact List.pairwise_pair.mpr rfl
  exact hs

/-- One over the sum of two variables can be a factor. -/
theorem isFactor_inverse_sum :
    Canonical.IsFactor (.power (.sum [.var "x", .var "y"]) (num (-1))) := by
  have hbase : Canonical.IsBase (.sum [.var "x", .var "y"]) (num (-1)) :=
    ⟨isStable_sum_var, rfl, rfl, fun _ => rfl⟩
  exact hbase.isFactor (Expr.isStable_num _) (by decide) (by decide) (fun h => by cases h)

/-- Division cancels for a rational times a variable over a sum. -/
theorem divisionCancels_iff_overSum :
    (overSum [num 3, .var "x"]).IsCanonical ∧ (overSum [num 3, .var "x"]).HasDistinctBases ∧
      (overSum [num 3, .var "x"]).HasNoZeroBase ∧ overSum [num 3, .var "x"] ≠ num 0 ∧
      ¬(overSum [num 3, .var "x"]).IsNumberOverSum ∧
      DivisionCancels "rad" (overSum [num 3, .var "x"]) := by
  have hs : (Canonical.productOf 3
        [.var "x", .power (.sum [.var "x", .var "y"]) (num (-1))]).IsStable := by
    refine Canonical.stable_productOf ?_ ?_ ?_ ?_ rfl
    · simp [Expr.isNum]
    · simp [Expr.isProduct]
    · simpa using ⟨Expr.isStable_var "x", isFactor_inverse_sum.stable⟩
    · exact List.pairwise_pair.mpr rfl
  change (overSum [num 3, .var "x"]).IsStable at hs
  have hc : (overSum [num 3, .var "x"]).IsCanonical := ⟨_, hs.measured, hs.simplify⟩
  have hz : (overSum [num 3, .var "x"]).HasNoZeroBase := by simp [overSum]
  have hsum : ¬(overSum [num 3, .var "x"]).IsNumberOverSum := by
    rintro ⟨c, ts, -, h⟩
    simp [overSum] at h
  have h0 : overSum [num 3, .var "x"] ≠ num 0 := by simp [overSum]
  exact ⟨hc, hs.distinct, hz, h0, hsum, (divisionCancels_iff "rad" hc hs.distinct hz h0).mpr hsum⟩

/-- Two over a sum divided by itself is not one, since the reciprocal is a sum of halves. -/
theorem not_div_self_overSum : (overSum [num 2]).IsCanonical ∧ (overSum [num 2]).HasNoZeroBase ∧
    overSum [num 2] ≠ num 0 ∧ div.evaluate "rad" [overSum [num 2], overSum [num 2]] ≠
      .ok (num 1) := by
  have hs : (Canonical.productOf 2 [.power (.sum [.var "x", .var "y"]) (num (-1))]).IsStable := by
    refine Canonical.stable_productOf ?_ ?_ ?_ ?_ rfl
    · simp [Expr.isNum]
    · simp [Expr.isProduct]
    · simpa using isFactor_inverse_sum.stable
    · exact List.pairwise_singleton _ _
  change (overSum [num 2]).IsStable at hs
  have h0 : overSum [num 2] ≠ num 0 := by simp [overSum]
  refine ⟨⟨_, hs.measured, hs.simplify⟩, by simp [overSum], h0, ?_⟩
  obtain ⟨r, hr, -, hne⟩ := Canonical.product_reciprocal_ne_one hs ⟨2, _, by decide, rfl⟩
  rwa [evaluate_div_self "rad" hs h0 hr]

end Operator
end StackAlgebra
