import StackAlgebra.Canonical.Factor

/-!
# Canonical products and powers

`Canonical.product` multiplies canonical factors: nested products are opened, numbers fold into one,
equal bases merge by their exponents, a number times a sum is distributed over the sum, and the
factors are sorted. `Canonical.power` raises a canonical expression to a canonical power: numbers
fold where the result is rational, a power of a power multiplies the exponents, and an integer power
of a product goes to its factors.

The two call on each other. They are defined together, by recursion on depth, weight and size, and
each result comes with the bounds on its measures that the recursion needs.
-/

namespace StackAlgebra.Canonical

open StackAlgebra.Expr (num weights depths nonNumbers coefficientOf)

/-- The lexicographic order that products and powers descend in. -/
theorem descends {a b c a' b' c' : Nat}
    (h : a < a' ∨ a = a' ∧ (b < b' ∨ b = b' ∧ c < c')) :
    Prod.Lex (· < ·) (Prod.Lex (· < ·) (· < ·)) (a, b, c) (a', b', c') := by
  simpa [Prod.lex_def] using h

mutual
/-- The canonical product of canonical factors, within its bounds. -/
def boundedProduct (fs : List Expr) : Except Error {r : Expr // ProductBound fs r} :=
  let os := opened fs
  if coefficientOf os = 0 then .ok ⟨num 0, productBound_zero fs⟩
  else
    match traverse (powersOf os) (R := MergeBound) fun g hg =>
      match g, hg with
      | (_, []), hg => absurd (length_mem_group _ hg) (by simp)
      | (b, [e]), _ => .ok ⟨bare b e, mergeBound_bare b e⟩
      | (b, e₁ :: e₂ :: es), hg =>
        if (sum (e₁ :: e₂ :: es)).hasOrder then
          match boundedPower b (sum (e₁ :: e₂ :: es)) with
          | .error e => .error e
          | .ok r => .ok ⟨r.1, .ofPower r.2⟩
        else .error .incomparable with
    | .error e => .error e
    | .ok ⟨ms, hms⟩ =>
      let c := coefficientOf os * coefficientOf ms
      have hb := MergedBound.ofPointwise hms
      if h : hasMerged (powersOf os) ∧ (nonNumbers ms).any Expr.isProduct then
        -- A merged power expanded into a product, whose factors may merge with the others.
        match boundedProduct (nonNumbers ms ++ [num c]) with
        | .error e => .error e
        | .ok r => .ok ⟨r.1, productBound_again hb r.2⟩
      else
        match hs : spread? c (nonNumbers ms) with
        | some ts =>
          match traverse ts (R := fun t r => ProductBound [num c, t] r)
            fun t _ht => boundedProduct [num c, t] with
          | .error e => .error e
          | .ok rs =>
            boundedInOrder ⟨sum rs.1, productBound_distributed hb (eq_of_spread? hs) rs.2⟩
        | none => boundedInOrder ⟨productOf c (nonNumbers ms), productBound_productOf hb c⟩
termination_by (depths fs, weights fs, 0)
decreasing_by
  · -- Equal bases merge.
    have h₁ := base_depth_le hg
    have h₂ : (sum (e₁ :: e₂ :: es)).rank ≤ depths fs := rank_sum_le (exponent_rank_le hg)
    have h₃ := baseWeight_lt hg (by simp)
    simp only [baseWeight] at h₁ h₃
    exact descends (by omega)
  · -- Merged bases multiply once more.
    have h₁ := hb.weight_of_hasMerged h.1
    have h₂ := nonNumbers_measures ms
    have h₃ := hb.depth
    rw [depths_snoc_num, weights_snoc_num]
    exact descends (by omega)
  · -- A number is distributed over a sum.
    have h₁ := Expr.weight_le_weights _ht
    have h₂ := Expr.depth_le_depths _ht
    have h₃ := nonNumbers_measures ms
    have h₄ := hb.depth
    have h₅ := hb.weight
    simp only [eq_of_spread? hs, depths, weights, Expr.depth, Expr.weight] at h₃ ⊢
    exact descends (by omega)

/-- The canonical power of a canonical base and exponent, within its bounds. -/
def boundedPower (b e : Expr) : Except Error {r : Expr // PowerBound b e r} :=
  if e.isZero then if b.isZero then .error .zeroToZero else .ok ⟨num 1, powerBound_one b e⟩
  else if e.isOne then .ok ⟨b, powerBound_base b e⟩
  else
    match b with
    | .num q =>
      match h : numberPower q e with
      | .error e => .error e
      | .ok r => .ok ⟨r, powerBound_numberPower h⟩
    | .power b' a =>
      match boundedProduct [a, e] with
      | .error e => .error e
      | .ok x =>
        match boundedPower b' x.1 with
        | .error e => .error e
        | .ok r => .ok ⟨r.1, powerBound_power x.2 r.2⟩
    | .product fs =>
      if he : e.isInteger then
        match traverse fs (R := fun f r => PowerBound f e r) fun f _hf => boundedPower f e with
        | .error e => .error e
        | .ok rs =>
          match boundedProduct rs.1 with
          | .error e => .error e
          | .ok r => .ok ⟨r.1, powerBound_product he rs.2 r.2⟩
      else .ok ⟨.power (.product fs) e, powerBound_bare fun h => absurd h he⟩
    | .sum ts => .ok ⟨.power (.sum ts) e, powerBound_bare fun _ => Nat.le_add_right 1 _⟩
    | .const c => .ok ⟨.power (.const c) e, powerBound_bare fun _ => Nat.le_refl 1⟩
    | .var x => .ok ⟨.power (.var x) e, powerBound_bare fun _ => Nat.le_refl 1⟩
    | .unary f x => .ok ⟨.power (.unary f x) e, powerBound_bare fun _ => Nat.le_refl 1⟩
    | .log x y => .ok ⟨.power (.log x y) e, powerBound_bare fun _ => Nat.le_refl 1⟩
    | .mod x y => .ok ⟨.power (.mod x y) e, powerBound_bare fun _ => Nat.le_refl 1⟩
    | .angle f x m => .ok ⟨.power (.angle f x m) e, powerBound_bare fun _ => Nat.le_refl 1⟩
termination_by (max b.depth e.rank, max 1 b.weight, sizeOf b)
decreasing_by
  · -- The exponents of a power of a power multiply.
    have h₁ := Expr.rank_le a
    simp only [depths, weights, Expr.depth_power, Expr.weight]
    cases ha : a.isNum <;> cases he : e.isNum
    all_goals first
      | have h₂ := Expr.rank_of_not_isNum ha
      | have h₂ := And.intro (Expr.depth_of_isNum ha) (Expr.weight_of_isNum ha)
    all_goals first
      | have h₃ := Expr.rank_of_not_isNum he
      | have h₃ := And.intro (Expr.depth_of_isNum he) (Expr.weight_of_isNum he)
    all_goals exact descends (by omega)
  · -- The inner base is raised to their product.
    have h₁ := rank_exponent_le x.2
    simp only [Expr.depth_power, Expr.weight]
    have h₂ : sizeOf b' < sizeOf (Expr.power b' a) := by simp; omega
    exact descends (by omega)
  · -- An integer power goes to the factors.
    have h₁ := Expr.weight_le_weights _hf
    have h₂ := Expr.depth_le_depths _hf
    have h₃ : sizeOf f < sizeOf (Expr.product fs) := by
      have := List.sizeOf_lt_of_mem _hf
      simp
      omega
    simp only [Expr.depth, Expr.weight]
    exact descends (by omega)
  · -- The powers of the factors multiply.
    obtain ⟨h₁, h₂⟩ := measures_powers he rs.2
    simp only [Expr.depth, Expr.weight]
    have h₃ : 0 < sizeOf (Expr.product fs) := by
      rw [Expr.product.sizeOf_spec]
      omega
    exact descends (by omega)
end

/-- The canonical product of canonical factors. -/
def product (fs : List Expr) : Except Error Expr :=
  Subtype.val <$> boundedProduct fs

/-- The canonical power of a canonical base and exponent. -/
def power (b e : Expr) : Except Error Expr :=
  Subtype.val <$> boundedPower b e

/-! ## The defining equations without the bounds -/

/-- The power that a base has in a product. A base that occurs once stays as it is. -/
def mergePower : Expr × List Expr → Except Error Expr
  | (b, [e]) => .ok (bare b e)
  | (b, es) => inOrder (sum es) >>= power b

/-- A rational times merged bases. A rational times a single sum is distributed over it. -/
def distribute (c : Rat) (fs : List Expr) : Except Error Expr :=
  match spread? c fs with
  | some ts => (ts.mapM fun t => product [num c, t]) >>= fun rs => inOrder (sum rs)
  | none => inOrder (productOf c fs)

/-- Multiply merged bases, once more if one of them expanded into a product. -/
def multiply (c : Rat) (gs : List (Expr × List Expr)) (ms : List Expr) : Except Error Expr :=
  if hasMerged gs ∧ (nonNumbers ms).any Expr.isProduct then
    product (nonNumbers ms ++ [num (c * coefficientOf ms)])
  else distribute (c * coefficientOf ms) (nonNumbers ms)

/-- The equation of products: open, merge equal bases, multiply what comes of it. -/
theorem product_eq (fs : List Expr) : product fs =
    if coefficientOf (opened fs) = 0 then .ok (num 0)
    else (powersOf (opened fs)).mapM mergePower >>=
      multiply (coefficientOf (opened fs)) (powersOf (opened fs)) := by
  rw [product, boundedProduct]
  split
  · rfl
  · split
    · rename_i e h
      have h := congrArg (Subtype.val <$> ·) h
      simp only at h
      rw [map_val_traverse (g := mergePower)] at h
      · rw [h]
        rfl
      · rintro ⟨b, _ | ⟨e₁, _ | ⟨e₂, es⟩⟩⟩ hg
        · exact absurd (length_mem_group _ hg) (by simp)
        · rfl
        · simp only [mergePower, inOrder]
          split
          · show _ = power b (sum (e₁ :: e₂ :: es))
            unfold power
            cases boundedPower b (sum (e₁ :: e₂ :: es)) <;> rfl
          · rfl
    · rename_i ms hms h
      have h := congrArg (Subtype.val <$> ·) h
      simp only at h
      rw [map_val_traverse (g := mergePower)] at h
      · rw [h]
        show _ = multiply (coefficientOf (opened fs)) (powersOf (opened fs)) ms
        by_cases hc : hasMerged (powersOf (opened fs)) = true ∧
            (nonNumbers ms).any Expr.isProduct = true
        · simp only [multiply, dif_pos hc, if_pos hc, product]
          cases boundedProduct
            (nonNumbers ms ++ [num (coefficientOf (opened fs) * coefficientOf ms)]) <;> rfl
        · simp only [multiply, dif_neg hc, if_neg hc, distribute]
          split
          · rename_i ts hs
            simp only [hs]
            rw [← map_val_traverse ts
              (fun t _ => boundedProduct [num (coefficientOf (opened fs) * coefficientOf ms), t])
              (fun t => product [num (coefficientOf (opened fs) * coefficientOf ms), t]) fun _ _ =>
              rfl]
            cases traverse ts fun t _ =>
                boundedProduct [num (coefficientOf (opened fs) * coefficientOf ms), t] with
            | error e => rfl
            | ok rs => exact val_boundedInOrder _
          · rename_i hs
            simp only [hs]
            exact val_boundedInOrder _
      · rintro ⟨b, _ | ⟨e₁, _ | ⟨e₂, es⟩⟩⟩ hg
        · exact absurd (length_mem_group _ hg) (by simp)
        · rfl
        · simp only [mergePower, inOrder]
          split
          · show _ = power b (sum (e₁ :: e₂ :: es))
            unfold power
            cases boundedPower b (sum (e₁ :: e₂ :: es)) <;> rfl
          · rfl

/-- The equation of powers. -/
theorem power_eq (b e : Expr) : power b e =
    if e.isZero then if b.isZero then .error .zeroToZero else .ok (num 1)
    else if e.isOne then .ok b
    else
      match b with
      | .num q => numberPower q e
      | .power b' a => product [a, e] >>= power b'
      | .product fs =>
        if e.isInteger then (fs.mapM fun f => power f e) >>= product
        else .ok (.power (.product fs) e)
      | b => .ok (.power b e) := by
  rw [power, boundedPower.eq_def]
  split
  · split <;> rfl
  split
  · rfl
  cases b with
  | num q =>
    simp only
    split
    · rename_i h
      exact h.symm
    · rename_i h
      exact h.symm
  | power b' a =>
    simp only [product]
    cases boundedProduct [a, e] with
    | error e => rfl
    | ok x =>
      show _ = power b' x.1
      simp only [power]
      cases boundedPower b' x.1 <;> rfl
  | product fs =>
    simp only
    split
    · rename_i he
      rw [← map_val_traverse fs (fun f _ => boundedPower f e) (fun f => power f e) fun _ _ => rfl]
      cases traverse fs fun f _ => boundedPower f e with
      | error e => rfl
      | ok rs =>
        show _ = product rs.1
        simp only [product]
        cases boundedProduct rs.1 <;> rfl
    · rfl
  | _ => rfl

end StackAlgebra.Canonical
