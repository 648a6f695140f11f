import StackAlgebra.Canonical.Group

/-!
# Canonical sums

`Canonical.sum` adds canonical terms: nested sums are opened, numbers fold into one, like terms
merge by their coefficients, and the terms are sorted. It never fails, and neither measure of
`Canonical/Measure` grows beyond that of the terms (`depth_sum_le`, `weight_sum_le`). Whether the
terms have an order at all is asked of the result (`inOrder`).
-/

namespace StackAlgebra.Canonical

open StackAlgebra.Expr (num weights depths)

mutual
/-- The terms of an expression, nested sums opened. -/
def summands : Expr → List Expr
  | .sum ts => summandsOf ts
  | e => [e]

/-- The terms of expressions, nested sums opened. -/
def summandsOf : List Expr → List Expr
  | [] => []
  | t :: ts => summands t ++ summandsOf ts
end

/-- The sum of rationals. -/
def totalOf (qs : List Rat) : Rat :=
  qs.foldl (· + ·) 0

/-- The term `c · rest`. -/
def term (c : Rat) (rest : Expr) : Expr :=
  if c = 1 then rest else .product (Expr.sort (num c :: rest.factors))

/-- The expression without coefficient and the coefficient of each term that is no number. -/
def labelled (ts : List Expr) : List (Expr × Rat) :=
  ts.filterMap fun t => t.splitCoefficient.2.map fun rest => (rest, t.splitCoefficient.1)

/-- The numbers among the terms. -/
def numberTerms (ts : List Expr) : List Rat :=
  ts.filterMap fun t =>
    match t.splitCoefficient with
    | (c, none) => some c
    | (_, some _) => none

/-- The term that a group of like terms makes; none if they cancel. -/
def mergeLike (g : Expr × List Rat) : Option Expr :=
  let c := totalOf g.2
  if c = 0 then none else some (term c g.1)

/-- Like terms merged, then the number if there is one. -/
def mergedTerms (ts : List Expr) : List Expr :=
  let c := totalOf (numberTerms ts)
  (group (labelled ts)).filterMap mergeLike ++ if c = 0 then [] else [num c]

/-- A sum of merged terms; none is zero and one stands alone. -/
def sumOf : List Expr → Expr
  | [] => num 0
  | [t] => t
  | ts => .sum (Expr.sort ts)

/-- The canonical sum of canonical terms. The last term is looked at first. -/
def sum (ts : List Expr) : Expr :=
  sumOf (mergedTerms (summandsOf ts).reverse)

/-- A result, unless it has terms or factors that no order puts in a row. Those inside of them have
been looked at before. -/
def inOrder (e : Expr) : Except Error Expr :=
  if e.hasOrder then .ok e else .error .incomparable

/-! ## Measures -/

mutual
/-- Opening nested sums adds no weight. -/
theorem weights_summands_le (e : Expr) : weights (summands e) ≤ e.weight := by
  cases e with
  | sum ts =>
    have := weights_summandsOf_le ts
    simp only [summands, Expr.weight]
    omega
  | _ => simp [summands, weights]

/-- Opening the sums among expressions adds no weight. -/
theorem weights_summandsOf_le (es : List Expr) : weights (summandsOf es) ≤ weights es := by
  cases es with
  | nil => simp [summandsOf]
  | cons t ts =>
    have := weights_summands_le t
    have := weights_summandsOf_le ts
    simp only [summandsOf, Expr.weights_append, weights]
    omega
end

mutual
/-- A term is no deeper than the expression. -/
theorem depths_summands_le (e : Expr) : ∀ t ∈ summands e, t.depth ≤ e.depth := by
  cases e with
  | sum ts => simpa [summands, Expr.depth] using depths_summandsOf_le ts
  | _ => simp [summands]

/-- A term is no deeper than the deepest of the expressions. -/
theorem depths_summandsOf_le (es : List Expr) : ∀ t ∈ summandsOf es, t.depth ≤ depths es := by
  cases es with
  | nil => simp [summandsOf]
  | cons e es =>
    intro t ht
    simp only [depths]
    rcases List.mem_append.mp ht with ht | ht
    · have := depths_summands_le e t ht
      omega
    · have := depths_summandsOf_le es t ht
      omega
end

/-- The terms of numbers are numbers. -/
theorem isNum_summandsOf {es : List Expr} (h : ∀ e ∈ es, e.isNum) :
    ∀ t ∈ summandsOf es, t.isNum := by
  induction es with
  | nil => simp [summandsOf]
  | cons e es ih =>
    intro t ht
    rcases List.mem_append.mp ht with ht | ht
    · have he := h e List.mem_cons_self
      cases e <;> simp_all [Expr.isNum, summands]
    · exact ih (fun e he => h e (List.mem_cons_of_mem _ he)) t ht

/-- A coefficient adds no weight to a term. -/
theorem weight_term (c : Rat) (e : Expr) : (term c e).weight = e.weight := by
  unfold term
  split
  · rfl
  · simp [Expr.weight, Expr.weights_sort, weights, Expr.weights_factors]

/-- A coefficient adds no depth to a term. -/
theorem depth_term_le (c : Rat) (e : Expr) : (term c e).depth ≤ e.depth := by
  unfold term
  split
  · exact Nat.le_refl _
  · simp only [Expr.depth]
    refine Expr.depths_le_iff.mpr fun x hx => ?_
    rcases List.mem_cons.mp (Expr.mem_sort.mp hx) with rfl | hx
    · simp [Expr.depth]
    · rw [← Expr.depths_factors e]
      exact Expr.depth_le_depths hx

/-- The terms without their coefficients weigh no more than with them. -/
theorem cost_labelled_le (ts : List Expr) :
    costOf (fun x => x.1.weight) (labelled ts) ≤ weights ts := by
  induction ts with
  | nil => simp [labelled, costOf]
  | cons t ts ih =>
    simp only [labelled, weights] at ih ⊢
    cases h : t.splitCoefficient.2 with
    | none =>
      simp only [List.filterMap_cons, h, Option.map_none]
      omega
    | some r =>
      have := Expr.weight_rest_le h
      simp only [List.filterMap_cons, h, Option.map_some, costOf]
      omega

/-- The terms that groups make weigh no more than the groups. -/
theorem weights_mergeLike_le (gs : List (Expr × List Rat)) :
    weights (gs.filterMap mergeLike) ≤ costOf (fun g => g.1.weight) gs := by
  induction gs with
  | nil => simp [costOf]
  | cons g gs ih =>
    simp only [costOf, List.filterMap_cons]
    split
    · omega
    · rename_i e h
      simp only [mergeLike] at h
      split at h
      · simp at h
      · simp only [Option.some.injEq] at h
        subst h
        simp only [weights, weight_term]
        omega

/-- Merged terms weigh no more than the terms. -/
theorem weights_mergedTerms_le (ts : List Expr) : weights (mergedTerms ts) ≤ weights ts := by
  have h₁ := weights_mergeLike_le (group (labelled ts))
  have h₂ := cost_labels_group_le Expr.weight (labelled ts)
  have h₃ := cost_labelled_le ts
  simp only [mergedTerms, Expr.weights_append]
  split <;> simp only [weights, Expr.weight] <;> omega

/-- A bound of the depth of the terms bounds that of the merged ones. -/
theorem depth_mergedTerms_le {ts : List Expr} {n : Nat} (h : ∀ t ∈ ts, t.depth ≤ n) :
    ∀ t ∈ mergedTerms ts, t.depth ≤ n := by
  intro t ht
  rcases List.mem_append.mp ht with ht | ht
  · obtain ⟨g, hg, hm⟩ := List.mem_filterMap.mp ht
    obtain ⟨x, hx, e⟩ := label_mem_group hg
    obtain ⟨u, hu, hr⟩ := List.mem_filterMap.mp hx
    obtain ⟨r, hr', rfl⟩ := Option.map_eq_some_iff.mp hr
    simp only [mergeLike] at hm
    split at hm
    · simp at hm
    · simp only [Option.some.injEq] at hm
      subst hm
      have := depth_term_le (totalOf g.2) g.1
      have := Expr.depth_rest_le hr'
      have := h u hu
      simp only at e
      rw [e] at *
      omega
  · split at ht
    · simp at ht
    · simp only [List.mem_singleton] at ht
      subst ht
      simp [Expr.depth]

/-- A sum weighs at most one more than its terms. -/
theorem weight_sum_le (ts : List Expr) : (sum ts).weight ≤ 1 + weights ts := by
  have h₁ := weights_mergedTerms_le (summandsOf ts).reverse
  have h₂ := weights_summandsOf_le ts
  rw [Expr.weights_reverse] at h₁
  unfold sum
  generalize mergedTerms (summandsOf ts).reverse = out at *
  match out with
  | [] => simp [sumOf, Expr.weight]
  | [t] =>
    simp only [weights] at h₁
    simp only [sumOf]
    omega
  | t :: u :: out =>
    simp only [sumOf, Expr.weight, Expr.weights_sort]
    omega

/-- A sum is no deeper than its terms. -/
theorem depth_sum_le (ts : List Expr) : (sum ts).depth ≤ depths ts := by
  have h : ∀ t ∈ mergedTerms (summandsOf ts).reverse, t.depth ≤ depths ts :=
    depth_mergedTerms_le fun t ht => depths_summandsOf_le ts t (List.mem_reverse.mp ht)
  unfold sum
  generalize mergedTerms (summandsOf ts).reverse = out at *
  match out with
  | [] => simp [sumOf, Expr.depth]
  | [t] => exact h t List.mem_cons_self
  | t :: u :: out =>
    simp only [sumOf, Expr.depth]
    exact Expr.depths_le_iff.mpr fun e he => h e (Expr.mem_sort.mp he)

/-- A sum of numbers is a number. -/
theorem isNum_sum {ts : List Expr} (h : ∀ t ∈ ts, t.isNum) : (sum ts).isNum := by
  have hl : labelled (summandsOf ts).reverse = [] := by
    refine List.filterMap_eq_nil_iff.mpr fun t ht => ?_
    have := isNum_summandsOf h t (List.mem_reverse.mp ht)
    cases t <;> simp_all [Expr.isNum, Expr.splitCoefficient]
  simp only [sum, mergedTerms, hl, group, List.foldl_nil, List.filterMap_nil, List.nil_append]
  split <;> simp [sumOf, Expr.isNum]

/-- As an exponent, a sum adds no more to the depth than the deepest of its terms. -/
theorem rank_sum_le {ts : List Expr} {n : Nat} (h : ∀ t ∈ ts, t.rank ≤ n) : (sum ts).rank ≤ n := by
  by_cases hn : ∀ t ∈ ts, t.isNum
  · simp [Expr.rank_of_isNum (isNum_sum hn)]
  · obtain ⟨u, hu⟩ := Classical.not_forall.mp hn
    obtain ⟨hu, hun⟩ := Classical.not_imp.mp hu
    have hur := Expr.rank_of_not_isNum (Bool.not_eq_true _ ▸ hun)
    have hd : depths ts ≤ n - 1 := by
      refine Expr.depths_le_iff.mpr fun t ht => ?_
      by_cases hn : t.isNum
      · simp [Expr.depth_of_isNum hn]
      · have := Expr.rank_of_not_isNum (Bool.not_eq_true _ ▸ hn)
        have := h t ht
        omega
    have := depth_sum_le ts
    have := Expr.rank_le (sum ts)
    have := h u hu
    omega

end StackAlgebra.Canonical
