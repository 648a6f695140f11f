import StackAlgebra.Expr.Key

/-!
# Two measures of expressions

Powers and products call on each other when they are brought to canonical form: a power of a product
becomes a product of powers, and equal bases in a product become a power. Two measures show that
this comes to an end. The `depth` of an expression counts how deep exponents are nested, numbers as
exponents not counted; its `weight` counts the factors that are no numbers. Neither looks into the
operands of functions, which are atoms to products and powers.
-/

namespace StackAlgebra

namespace Expr

mutual
/-- The factors of an expression that are no numbers; a sum weighs one more than its terms. -/
def weight : Expr → Nat
  | num _ => 0
  | sum ts => 1 + weights ts
  | product fs => weights fs
  | power b _ => max 1 b.weight
  | _ => 1

/-- The weights of expressions together. -/
def weights : List Expr → Nat
  | [] => 0
  | e :: es => e.weight + weights es
end

mutual
/-- The depth of exponents in an expression. -/
def depth : Expr → Nat
  | sum ts => depths ts
  | product fs => depths fs
  | power b e =>
    max b.depth (match e with
      | num _ => 0
      | e => 1 + e.depth)
  | _ => 0

/-- The greatest depth of expressions. -/
def depths : List Expr → Nat
  | [] => 0
  | e :: es => max e.depth (depths es)
end

/-- What an expression adds to the depth where it stands as an exponent. -/
def rank : Expr → Nat
  | num _ => 0
  | e => 1 + e.depth

/-- A product weighs what its factors weigh. -/
@[simp] theorem weight_product (fs : List Expr) : (product fs).weight = weights fs := rfl

/-- No expressions weigh nothing. -/
@[simp] theorem weights_nil : weights [] = 0 := rfl

/-- The weights of expressions add up. -/
@[simp] theorem weights_cons (e : Expr) (es : List Expr) :
    weights (e :: es) = e.weight + weights es := rfl

/-- A product is as deep as its deepest factor. -/
@[simp] theorem depth_product (fs : List Expr) : (product fs).depth = depths fs := rfl

/-- No expressions have no depth. -/
@[simp] theorem depths_nil : depths [] = 0 := rfl

/-- The greatest depth is that of the first expression or of the others. -/
@[simp] theorem depths_cons (e : Expr) (es : List Expr) :
    depths (e :: es) = max e.depth (depths es) := rfl

/-! ## Lists -/

/-- The weights of two lists add up. -/
@[simp] theorem weights_append (xs ys : List Expr) :
    weights (xs ++ ys) = weights xs + weights ys := by
  induction xs with
  | nil => simp
  | cons x xs ih => simp [ih, Nat.add_assoc]

/-- The order of expressions does not matter to their weight. -/
theorem weights_reverse (xs : List Expr) : weights xs.reverse = weights xs := by
  induction xs with
  | nil => rfl
  | cons x xs ih => simp [ih, Nat.add_comm]

/-- One expression weighs no more than all of them. -/
theorem weight_le_weights {e : Expr} {es : List Expr} (h : e ∈ es) : e.weight ≤ weights es := by
  induction es with
  | nil => simp at h
  | cons x xs ih =>
    rcases List.mem_cons.mp h with rfl | h
    · simp
    · have := ih h
      simp only [weights_cons]
      omega

/-- The greatest depth is bounded exactly if every depth is. -/
theorem depths_le_iff {es : List Expr} {n : Nat} : depths es ≤ n ↔ ∀ e ∈ es, e.depth ≤ n := by
  induction es with
  | nil => simp
  | cons x xs ih => simp only [depths_cons, Nat.max_le, ih, List.forall_mem_cons]

/-- One expression is no deeper than the deepest. -/
theorem depth_le_depths {e : Expr} {es : List Expr} (h : e ∈ es) : e.depth ≤ depths es :=
  depths_le_iff.mp (Nat.le_refl _) e h

/-- Some of the expressions weigh no more than all of them. -/
theorem weights_filter_le (p : Expr → Bool) (es : List Expr) :
    weights (es.filter p) ≤ weights es := by
  induction es with
  | nil => simp
  | cons x xs ih =>
    simp only [List.filter_cons, weights_cons]
    split
    · simp only [weights_cons]
      omega
    · omega

/-! ## Sorting keeps both measures -/

/-- Inserting adds the one expression. -/
theorem mem_insert {e a : Expr} {es : List Expr} : e ∈ insert a es ↔ e = a ∨ e ∈ es := by
  induction es with
  | nil => simp [insert]
  | cons b bs ih =>
    simp only [insert]
    split <;> simp [ih, or_left_comm]

/-- Sorting keeps the expressions. -/
theorem mem_sort {e : Expr} {es : List Expr} : e ∈ sort es ↔ e ∈ es := by
  induction es with
  | nil => simp [sort]
  | cons a as ih => simpa [sort, mem_insert] using or_congr_right ih

/-- Inserting adds the weight of the one expression. -/
theorem weights_insert (a : Expr) (es : List Expr) :
    weights (insert a es) = a.weight + weights es := by
  induction es with
  | nil => rfl
  | cons b bs ih =>
    simp only [insert]
    split
    · simp only [weights_cons, ih]
      omega
    · rfl

/-- Sorting keeps the weight. -/
theorem weights_sort (es : List Expr) : weights (sort es) = weights es := by
  induction es with
  | nil => rfl
  | cons a as ih =>
    have : weights (sort (a :: as)) = a.weight + weights (sort as) := weights_insert a _
    rw [this, ih]
    rfl

/-! ## Single expressions -/

/-- A power is as deep as its base, or as its exponent makes it. -/
theorem depth_power (b e : Expr) : (power b e).depth = max b.depth e.rank := by
  cases e <;> rfl

/-- An exponent adds at most one to its own depth. -/
theorem rank_le (e : Expr) : e.rank ≤ 1 + e.depth := by
  cases e <;> simp [rank]

/-- An exponent that is no number adds one to its own depth. -/
theorem rank_of_not_isNum {e : Expr} (h : e.isNum = false) : e.rank = 1 + e.depth := by
  cases e <;> simp_all [rank, isNum]

/-- A number has no depth. -/
theorem depth_of_isNum {e : Expr} (h : e.isNum) : e.depth = 0 := by
  cases e <;> simp_all [depth, isNum]

/-- A number as exponent adds no depth. -/
theorem rank_of_isNum {e : Expr} (h : e.isNum) : e.rank = 0 := by
  cases e <;> simp_all [rank, isNum]

/-- A number weighs nothing. -/
theorem weight_of_isNum {e : Expr} (h : e.isNum) : e.weight = 0 := by
  cases e <;> simp_all [weight, isNum]

/-- An integer is a number. -/
theorem isNum_of_isInteger {e : Expr} (h : e.isInteger) : e.isNum := by
  cases e <;> simp_all [isInteger, isNum]

/-- What is neither a number nor a product has a weight. -/
theorem weight_pos {e : Expr} (hn : e.isNum = false) (hp : e.isProduct = false) : 1 ≤ e.weight := by
  cases e with
  | num q => cases hn
  | product fs => cases hp
  | sum ts => exact Nat.le_add_right _ _
  | power b e => exact Nat.le_max_left _ _
  | _ => exact Nat.le_refl _

/-- A factor weighs as much as its base, or one if the base is a number. -/
theorem weight_splitPower {e : Expr} (hn : e.isNum = false) (hp : e.isProduct = false) :
    max 1 e.splitPower.1.weight = e.weight := by
  have h := weight_pos hn hp
  cases e with
  | power b e => rfl
  | _ => exact Nat.max_eq_right h

/-- Splitting a power keeps its depth. -/
theorem depth_splitPower (e : Expr) : max e.splitPower.1.depth e.splitPower.2.rank = e.depth := by
  cases e <;> simp [splitPower, depth_power, rank]

/-- The expressions that are no numbers are no deeper than all of them. -/
theorem depths_nonNumbers_le (es : List Expr) : depths (nonNumbers es) ≤ depths es :=
  depths_le_iff.mpr fun _ h => depth_le_depths (List.mem_filter.mp h).1

/-- A term without its coefficient weighs no more. -/
theorem weight_rest_le {e r : Expr} (h : e.splitCoefficient.2 = some r) : r.weight ≤ e.weight := by
  cases e with
  | product fs =>
    simp only [splitCoefficient] at h
    have hw : weights (nonNumbers fs) ≤ weights fs := weights_filter_le _ _
    cases hf : nonNumbers fs with
    | nil => simp [hf, productOf?] at h
    | cons x xs =>
      cases xs with
      | nil =>
        simp only [hf, productOf?, Option.some.injEq] at h
        simp only [hf, weights_cons, weights_nil] at hw
        subst h
        simp only [weight_product]
        omega
      | cons y ys =>
        simp only [hf, productOf?, Option.some.injEq] at h
        subst h
        rw [hf] at hw
        simpa using hw
  | num q => simp [splitCoefficient] at h
  | _ =>
    simp only [splitCoefficient, Option.some.injEq] at h
    subst h
    exact Nat.le_refl _

/-- A term without its coefficient is no deeper. -/
theorem depth_rest_le {e r : Expr} (h : e.splitCoefficient.2 = some r) : r.depth ≤ e.depth := by
  cases e with
  | product fs =>
    simp only [splitCoefficient] at h
    have hd : depths (nonNumbers fs) ≤ depths fs := depths_nonNumbers_le fs
    cases hf : nonNumbers fs with
    | nil => simp [hf, productOf?] at h
    | cons x xs =>
      cases xs with
      | nil =>
        simp only [hf, productOf?, Option.some.injEq] at h
        simp only [hf, depths_cons, depths_nil] at hd
        subst h
        simp only [depth_product]
        omega
      | cons y ys =>
        simp only [hf, productOf?, Option.some.injEq] at h
        subst h
        rw [hf] at hd
        simpa using hd
  | num q => simp [splitCoefficient] at h
  | _ =>
    simp only [splitCoefficient, Option.some.injEq] at h
    subst h
    exact Nat.le_refl _

/-- The factors of an expression weigh what it weighs. -/
theorem weights_factors (e : Expr) : weights e.factors = e.weight := by
  cases e <;> simp [factors]

/-- The factors of an expression are as deep as it. -/
theorem depths_factors (e : Expr) : depths e.factors = e.depth := by
  cases e <;> simp [factors]

end Expr
end StackAlgebra
