import StackAlgebra.Canonical.Measure

/-!
# Terms and factors as they are displayed

A sum shows a term with a negative coefficient after a minus sign, and a product shows a power with
a negative number as exponent below a fraction bar. `Expr.negated` and `Expr.inverted` are what is
shown there. Neither has more `nodes` than the term or factor it comes from, numbers not counted, so
the display of an expression comes to an end.
-/

namespace StackAlgebra.Expr

mutual
/-- The nodes of an expression that are no numbers. -/
def nodes : Expr → Nat
  | num _ => 0
  | const _ => 1
  | var _ => 1
  | sum ts => 1 + nodesOf ts
  | product fs => 1 + nodesOf fs
  | power b e => 1 + b.nodes + e.nodes
  | unary _ x => 1 + x.nodes
  | log x b => 1 + x.nodes + b.nodes
  | mod x d => 1 + x.nodes + d.nodes
  | angle _ x _ => 1 + x.nodes

/-- The nodes of expressions together. -/
def nodesOf : List Expr → Nat
  | [] => 0
  | e :: es => e.nodes + nodesOf es
end

/-- A number is not counted. -/
@[simp] theorem nodes_num (q : Rat) : (num q).nodes = 0 := rfl

/-- A product counts as one node beside its factors. -/
@[simp] theorem nodes_product (fs : List Expr) : (product fs).nodes = 1 + nodesOf fs := rfl

/-- A power counts as one node beside base and exponent. -/
@[simp] theorem nodes_power (b e : Expr) : (power b e).nodes = 1 + b.nodes + e.nodes := rfl

/-- No expressions have no nodes. -/
@[simp] theorem nodesOf_nil : nodesOf [] = 0 := rfl

/-- The nodes of expressions add up. -/
@[simp] theorem nodesOf_cons (e : Expr) (es : List Expr) :
    nodesOf (e :: es) = e.nodes + nodesOf es := rfl

/-- The coefficient of the term is negative. -/
def isNegative (t : Expr) : Bool :=
  t.splitCoefficient.1 < 0

/-- The term with the sign of its coefficient flipped. -/
def negated (t : Expr) : Expr :=
  match t.splitCoefficient with
  | (c, none) => num (-c)
  | (c, some rest) => if c = -1 then rest else product (num (-c) :: rest.factors)

/-- The factor is a power with a negative number as exponent. -/
def isInverse : Expr → Bool
  | power _ (num q) => q < 0
  | _ => false

/-- The reciprocal of such a factor. -/
def inverted : Expr → Expr
  | power b (num q) => if q = -1 then b else power b (num (-q))
  | e => e

/-! ## Nodes -/

/-- One expression has no more nodes than all of them. -/
theorem nodes_le_nodesOf {e : Expr} {es : List Expr} (h : e ∈ es) : e.nodes ≤ nodesOf es := by
  induction es with
  | nil => simp at h
  | cons x xs ih =>
    rcases List.mem_cons.mp h with rfl | h
    · simp
    · have := ih h
      simp only [nodesOf_cons]
      omega

/-- Leaving out numbers adds no nodes. -/
theorem nodesOf_nonNumbers_le (es : List Expr) : nodesOf (nonNumbers es) ≤ nodesOf es := by
  induction es with
  | nil => simp [nonNumbers]
  | cons x xs ih =>
    simp only [nonNumbers, List.filter_cons, nodesOf_cons] at ih ⊢
    split
    · simp only [nodesOf_cons]
      omega
    · omega

/-- The factors of an expression have no more nodes than it. -/
theorem nodesOf_factors_le (e : Expr) : nodesOf e.factors ≤ e.nodes := by
  cases e <;> simp [factors]

/-- A product has at most one node more than its factors, and its factors have no more. -/
theorem nodes_productOf?_le {fs : List Expr} {r : Expr} (h : productOf? fs = some r) :
    r.nodes ≤ 1 + nodesOf fs ∧ nodesOf r.factors ≤ nodesOf fs := by
  match fs with
  | [] => simp [productOf?] at h
  | [f] =>
    simp only [productOf?, Option.some.injEq] at h
    subst h
    have := nodesOf_factors_le f
    simp only [nodesOf_cons, nodesOf_nil]
    omega
  | f :: g :: fs =>
    simp only [productOf?, Option.some.injEq] at h
    subst h
    simp [factors]

/-- Flipping the sign of a negative term adds no nodes. -/
theorem nodes_negated_le {t : Expr} (h : t.isNegative) : t.negated.nodes ≤ t.nodes := by
  cases t with
  | num q => simp [negated, splitCoefficient]
  | product fs =>
    simp only [negated, splitCoefficient]
    have h₁ := nodesOf_nonNumbers_le fs
    split
    · simp
    · rename_i c rest hs
      simp only [Prod.mk.injEq] at hs
      obtain ⟨h₂, h₃⟩ := nodes_productOf?_le hs.2
      split
      · simp only [nodes_product]
        omega
      · simp only [nodes_product, nodesOf_cons, nodes_num]
        omega
  | _ =>
    have h₁ : ¬(1 : Rat) < 0 := by decide
    exact absurd h (by simp [isNegative, splitCoefficient, h₁])

/-- The reciprocal of a factor has no more nodes. -/
theorem nodes_inverted_le (e : Expr) : e.inverted.nodes ≤ e.nodes := by
  unfold inverted
  split
  · split
    · simp only [nodes_power, nodes_num]
      omega
    · simp
  · exact Nat.le_refl _

/-- An inverse factor is inverted into one with fewer nodes or into one that is no inverse. -/
theorem inverted_of_isInverse {e : Expr} (h : e.isInverse) :
    e.inverted.nodes < e.nodes ∨ e.inverted.nodes = e.nodes ∧ e.inverted.isInverse = false := by
  unfold isInverse at h
  split at h
  · rename_i b q
    simp only [inverted]
    split
    · left
      simp only [nodes_power, nodes_num]
      omega
    · right
      have hq : q < 0 := by simpa using h
      refine ⟨by simp, ?_⟩
      simp only [isInverse, decide_eq_false_iff_not, Rat.not_lt]
      have := (Rat.neg_lt_neg_iff (a := 0) (b := q)).mpr hq
      exact Rat.le_of_lt (by simpa using this)
  · simp at h

end StackAlgebra.Expr
