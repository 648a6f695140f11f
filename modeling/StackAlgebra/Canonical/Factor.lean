import StackAlgebra.Canonical.Sum
import StackAlgebra.Number.Root
import StackAlgebra.Canonical.Traverse

/-!
# Factors of canonical products

The parts of `Canonical/Product` that need no recursion through products and powers: opening nested
products, gathering equal bases (`powersOf`), powers of numbers (`numberPower`), and putting merged
factors together (`productOf`). `ProductBound`, `PowerBound` and `MergeBound` say what a product, a
power and a merged base keep of the measures of what they are made from.
-/

namespace StackAlgebra.Canonical

open StackAlgebra.Expr (num weights depths nonNumbers coefficientOf)

mutual
/-- The factors of an expression, nested products opened. -/
def multiplicands : Expr → List Expr
  | .product fs => multiplicandsOf fs
  | e => [e]

/-- The factors of expressions, nested products opened. -/
def multiplicandsOf : List Expr → List Expr
  | [] => []
  | f :: fs => multiplicands f ++ multiplicandsOf fs
end

/-- The bases among the factors, each with the exponents seen for it. -/
def powersOf (fs : List Expr) : List (Expr × List Expr) :=
  group ((nonNumbers fs).map Expr.splitPower)

/-- A power of a single factor, as it stands. -/
def bare (b e : Expr) : Expr :=
  if e.isOne then b else .power b e

/-- Some base occurs with two exponents or more. -/
def hasMerged (gs : List (Expr × List Expr)) : Bool :=
  gs.any fun g => 2 ≤ g.2.length

/-- A product of merged factors; none is one and one stands alone. -/
def collapse : List Expr → Expr
  | [] => num 1
  | [f] => f
  | fs => .product (Expr.sort fs)

/-- The product of a rational and merged factors. -/
def productOf (c : Rat) (fs : List Expr) : Expr :=
  if c = 0 then num 0 else collapse (if c = 1 then fs else fs ++ [num c])

/-- The terms over which a rational is to be distributed: those of a sum that stands alone with a
rational other than zero and one. -/
def spread? (c : Rat) : List Expr → Option (List Expr)
  | [.sum ts] => if c = 0 ∨ c = 1 then none else some ts
  | _ => none

/-- A rational is distributed over a sum that stands alone. -/
theorem eq_of_spread? {c : Rat} {fs ts : List Expr} (h : spread? c fs = some ts) :
    fs = [.sum ts] := by
  unfold spread? at h
  split at h
  · split at h
    · cases h
    · rw [Option.some.inj h]
  · cases h

/-- No rational is distributed over what is no sum alone. -/
theorem spread?_eq_none {c : Rat} {fs : List Expr} (h : ∀ ts, fs ≠ [.sum ts]) :
    spread? c fs = none := by
  cases hs : spread? c fs with
  | none => rfl
  | some ts => exact absurd (eq_of_spread? hs) (h ts)

/-- `b ^ e` for rationals other than zero, exactly where the result is rational. Of any other the
exponent is brought between zero and one, its whole part moving into a rational coefficient. -/
def rationalPower (b e : Rat) : Except Error Expr :=
  if e.den = 1 then .ok (num (b ^ e.num))
  else if b < 0 ∧ e.den % 2 = 0 then .error .complexResult
  else
    match Root.rational? e.den b.abs with
    | some root => .ok (num ((if 0 < b then root else -root) ^ e.num))
    | none =>
      let whole := e.floor
      let part := Expr.power (num b) (num (e - whole))
      .ok (if whole = 0 then part else .product (Expr.sort [num (b ^ whole), part]))

/-- A power of the number `b`, the exponent being neither zero nor one. -/
def numberPower (b : Rat) (e : Expr) : Except Error Expr :=
  if b = 1 then .ok (num 1)
  else
    match e with
    | num q =>
      if b = 0 then if q < 0 then .error .divisionByZero else .ok (num 0) else rationalPower b q
    | e => .ok (.power (num b) e)

/-- A result within its bounds, unless it has terms or factors that no order puts in a row. -/
def boundedInOrder {P : Expr → Prop} (r : {r : Expr // P r}) : Except Error {r : Expr // P r} :=
  if r.1.hasOrder then .ok r else .error .incomparable

/-- The bounds make no difference to a result. -/
theorem val_boundedInOrder {P : Expr → Prop} (r : {r : Expr // P r}) :
    Subtype.val <$> boundedInOrder r = inOrder r.1 := by
  unfold boundedInOrder inOrder
  split <;> rfl

/-! ## Bounds -/

/-- What a product keeps of its factors. -/
structure ProductBound (fs : List Expr) (r : Expr) : Prop where
  depth : r.depth ≤ depths fs
  weight : r.weight ≤ weights fs
  isNum : (∀ f ∈ fs, f.isNum) → r.isNum

/-- What a power keeps of its base and exponent. -/
structure PowerBound (b e r : Expr) : Prop where
  depth : r.depth ≤ max b.depth e.rank
  weight : r.weight ≤ max 1 b.weight
  weight_of_isInteger : e.isInteger → r.weight ≤ b.weight

/-- What a merged power keeps of its group. -/
structure MergeBound (g : Expr × List Expr) (r : Expr) : Prop where
  depth : ∀ n, g.1.depth ≤ n → (∀ e ∈ g.2, e.rank ≤ n) → r.depth ≤ n
  weight : r.weight ≤ max 1 g.1.weight

mutual
/-- Opening nested products keeps the weight. -/
theorem weights_multiplicands (e : Expr) : weights (multiplicands e) = e.weight := by
  cases e with
  | product fs => simpa [multiplicands, Expr.weight] using weights_multiplicandsOf fs
  | _ => simp [multiplicands, weights]

/-- Opening the products among expressions keeps their weight. -/
theorem weights_multiplicandsOf (es : List Expr) : weights (multiplicandsOf es) = weights es := by
  cases es with
  | nil => rfl
  | cons e es =>
    simp [multiplicandsOf, weights, weights_multiplicands e, weights_multiplicandsOf es]
end

mutual
/-- A factor is no deeper than the expression. -/
theorem depth_multiplicands_le (e : Expr) : ∀ f ∈ multiplicands e, f.depth ≤ e.depth := by
  cases e with
  | product fs => simpa [multiplicands, Expr.depth] using depth_multiplicandsOf_le fs
  | _ => simp [multiplicands]

/-- A factor is no deeper than the deepest of the expressions. -/
theorem depth_multiplicandsOf_le (es : List Expr) :
    ∀ f ∈ multiplicandsOf es, f.depth ≤ depths es := by
  cases es with
  | nil => simp [multiplicandsOf]
  | cons e es =>
    intro f hf
    simp only [depths]
    rcases List.mem_append.mp hf with hf | hf
    · have := depth_multiplicands_le e f hf
      omega
    · have := depth_multiplicandsOf_le es f hf
      omega
end

mutual
/-- No product is left among the factors of an expression. -/
theorem not_isProduct_multiplicands (e : Expr) : ∀ f ∈ multiplicands e, f.isProduct = false := by
  cases e with
  | product fs => simpa [multiplicands] using not_isProduct_multiplicandsOf fs
  | _ => simp [multiplicands, Expr.isProduct]

/-- No product is left among the factors of expressions. -/
theorem not_isProduct_multiplicandsOf (es : List Expr) :
    ∀ f ∈ multiplicandsOf es, f.isProduct = false := by
  cases es with
  | nil => simp [multiplicandsOf]
  | cons e es =>
    intro f hf
    rcases List.mem_append.mp hf with hf | hf
    · exact not_isProduct_multiplicands e f hf
    · exact not_isProduct_multiplicandsOf es f hf
end

/-- The factors of numbers are numbers. -/
theorem isNum_multiplicandsOf {es : List Expr} (h : ∀ e ∈ es, e.isNum) :
    ∀ f ∈ multiplicandsOf es, f.isNum := by
  induction es with
  | nil => simp [multiplicandsOf]
  | cons e es ih =>
    intro f hf
    rcases List.mem_append.mp hf with hf | hf
    · have he := h e List.mem_cons_self
      cases e <;> simp_all [Expr.isNum, multiplicands]
    · exact ih (fun e he => h e (List.mem_cons_of_mem _ he)) f hf

/-- The factors as they are looked at, the last one first. -/
def opened (fs : List Expr) : List Expr :=
  (multiplicandsOf fs).reverse

/-- The factors are looked at in another order, and no others. -/
theorem mem_opened {f : Expr} {fs : List Expr} : f ∈ opened fs ↔ f ∈ multiplicandsOf fs :=
  List.mem_reverse

/-- The factors weigh as much in the order in which they are looked at. -/
theorem weights_opened (fs : List Expr) : weights (opened fs) = weights fs := by
  rw [opened, Expr.weights_reverse, weights_multiplicandsOf]

/-- The weight of a base as a factor. -/
def baseWeight (b : Expr) : Nat :=
  max 1 b.weight

/-- The bases weigh no more than the factors they are the bases of. -/
theorem cost_splitPower {fs : List Expr} (h : ∀ f ∈ fs, f.isProduct = false) :
    costOf (fun x => baseWeight x.1) ((nonNumbers fs).map Expr.splitPower) ≤ weights fs := by
  induction fs with
  | nil => simp [nonNumbers, costOf]
  | cons f fs ih =>
    have ih := ih fun x hx => h x (List.mem_cons_of_mem _ hx)
    cases hn : f.isNum with
    | true =>
      simp only [nonNumbers, List.filter_cons, hn] at ih ⊢
      simp only [weights]
      simp
      omega
    | false =>
      have := Expr.weight_splitPower hn (h f List.mem_cons_self)
      simp only [nonNumbers, List.filter_cons, hn] at ih ⊢
      simp only [weights, Bool.not_false, if_true, List.map_cons, costOf, baseWeight] at ih ⊢
      omega

/-- The groups of bases weigh no more than the factors. -/
theorem cost_powersOf_le (fs : List Expr) :
    costOf (groupCost baseWeight) (powersOf (opened fs)) ≤ weights fs := by
  have h₁ := cost_group_le baseWeight ((nonNumbers (opened fs)).map Expr.splitPower) fun x _ => by
    simp only [baseWeight]
    omega
  have h₂ := @cost_splitPower (opened fs) fun f hf =>
    not_isProduct_multiplicandsOf fs f (mem_opened.mp hf)
  rw [weights_opened] at h₂
  exact Nat.le_trans h₁ h₂

/-- A base is no deeper than the factors. -/
theorem base_depth_le {fs : List Expr} {g : Expr × List Expr} (h : g ∈ powersOf (opened fs)) :
    g.1.depth ≤ depths fs := by
  obtain ⟨x, hx, e⟩ := label_mem_group h
  obtain ⟨f, hf, rfl⟩ := List.mem_map.mp hx
  have := depth_multiplicandsOf_le fs f (mem_opened.mp (List.mem_filter.mp hf).1)
  have := Expr.depth_splitPower f
  rw [e]
  omega

/-- The exponents of a base add no more depth than the factors have. -/
theorem exponent_rank_le {fs : List Expr} {g : Expr × List Expr} (h : g ∈ powersOf (opened fs)) :
    ∀ e ∈ g.2, e.rank ≤ depths fs := by
  intro e he
  obtain ⟨x, hx, rfl⟩ := value_mem_group h he
  obtain ⟨f, hf, rfl⟩ := List.mem_map.mp hx
  have := depth_multiplicandsOf_le fs f (mem_opened.mp (List.mem_filter.mp hf).1)
  have := Expr.depth_splitPower f
  omega

/-- A base and its exponents weigh no more than all groups together. -/
theorem weight_mem_groups {gs : List (Expr × List Expr)} {g : Expr × List Expr} (h : g ∈ gs) :
    baseWeight g.1 + (g.2.length - 1) ≤ costOf (groupCost baseWeight) gs := by
  induction gs with
  | nil => simp at h
  | cons x xs ih =>
    simp only [costOf, groupCost]
    rcases List.mem_cons.mp h with rfl | h
    · omega
    · have := ih h
      omega

/-- Merged powers weigh no more than their groups, and less if some group has several members. -/
theorem weights_merged_le {gs : List (Expr × List Expr)} {ms : List Expr}
    (h : Pointwise MergeBound gs ms) :
    weights ms ≤ costOf (groupCost baseWeight) gs ∧
      (hasMerged gs → weights ms < costOf (groupCost baseWeight) gs) := by
  induction h with
  | nil => simp [weights, hasMerged]
  | @cons g m gs ms hb _ ih =>
    have := hb.weight
    simp only [hasMerged, List.any_cons, Bool.or_eq_true, decide_eq_true_eq, weights, costOf,
      groupCost, baseWeight] at ih ⊢
    refine ⟨by omega, ?_⟩
    rintro (h | h)
    · omega
    · have := ih.2 h
      omega

/-- Merged powers are no deeper than the factors. -/
theorem depths_merged_le {fs ms : List Expr} {gs : List (Expr × List Expr)}
    (hgs : ∀ g ∈ gs, g ∈ powersOf (opened fs)) (h : Pointwise MergeBound gs ms) :
    depths ms ≤ depths fs := by
  induction h with
  | nil => simp [depths]
  | @cons g m gs ms hb _ ih =>
    have hg := hgs g List.mem_cons_self
    have := hb.depth (depths fs) (base_depth_le hg) (exponent_rank_le hg)
    have := ih fun x hx => hgs x (List.mem_cons_of_mem _ hx)
    simp only [depths]
    omega

/-- A single factor keeps its bounds as a power. -/
theorem mergeBound_bare (b e : Expr) : MergeBound (b, [e]) (bare b e) where
  depth n hb he := by
    have hb : b.depth ≤ n := hb
    have := he e (List.mem_singleton.mpr rfl)
    unfold bare
    split
    · exact hb
    · rw [Expr.depth_power]
      omega
  weight := by
    unfold bare
    split
    · exact Nat.le_max_right 1 b.weight
    · simp [Expr.weight]

/-- The power to the sum of its exponents is within the bounds of a group. -/
theorem MergeBound.ofPower {b r : Expr} {es : List Expr} (h : PowerBound b (sum es) r) :
    MergeBound (b, es) r where
  depth n hb he := by
    have hb : b.depth ≤ n := hb
    have hs : (sum es).rank ≤ n := rank_sum_le he
    have := h.depth
    omega
  weight := h.weight

/-- If all factors are numbers there are no bases. -/
theorem powersOf_eq_nil {fs : List Expr} (h : ∀ f ∈ fs, f.isNum) : powersOf (opened fs) = [] := by
  refine group_eq_nil (List.map_eq_nil_iff.mpr (List.filter_eq_nil_iff.mpr fun f hf => ?_))
  simp [isNum_multiplicandsOf h f (mem_opened.mp hf)]

/-- Nothing is merged where there are no groups. -/
theorem nil_of_pointwise {ms : List Expr} (h : Pointwise MergeBound [] ms) : ms = [] := by
  cases h
  rfl

/-- Zero is within the bounds of any product. -/
theorem productBound_zero (fs : List Expr) : ProductBound fs (num 0) where
  depth := by simp [Expr.depth]
  weight := by simp [Expr.weight]
  isNum _ := rfl

/-- A number adds no weight to factors. -/
theorem weights_snoc_num (fs : List Expr) (c : Rat) : weights (fs ++ [num c]) = weights fs := by
  simp [weights, Expr.weight]

/-- A number adds no depth to factors. -/
theorem depths_snoc_num (fs : List Expr) (c : Rat) : depths (fs ++ [num c]) = depths fs := by
  induction fs with
  | nil => simp [depths, Expr.depth]
  | cons f fs ih => simp [depths, ih]

/-- A product is no deeper than its merged factors and weighs no more. -/
theorem measures_collapse (fs : List Expr) :
    (collapse fs).depth ≤ depths fs ∧ (collapse fs).weight ≤ weights fs := by
  match fs with
  | [] => simp [collapse, Expr.depth, Expr.weight]
  | [f] =>
    simp only [collapse, depths, weights]
    omega
  | f :: g :: fs =>
    simp only [collapse, Expr.depth, Expr.weight, Expr.weights_sort, Nat.le_refl, and_true]
    exact Expr.depths_le_iff.mpr fun e he => Expr.depth_le_depths (Expr.mem_sort.mp he)

/-- A rational coefficient adds nothing to that. -/
theorem measures_productOf (c : Rat) (fs : List Expr) :
    (productOf c fs).depth ≤ depths fs ∧ (productOf c fs).weight ≤ weights fs := by
  unfold productOf
  split
  · simp [Expr.depth, Expr.weight]
  · split
    · exact measures_collapse fs
    · rw [← depths_snoc_num fs c, ← weights_snoc_num fs c]
      exact measures_collapse _

/-- A rational without factors stays a number. -/
theorem isNum_productOf_nil (c : Rat) : (productOf c []).isNum := by
  unfold productOf
  split
  · rfl
  · split <;> rfl

/-- The factors that are no numbers are no deeper than all factors and weigh no more. -/
theorem nonNumbers_measures (ms : List Expr) :
    depths (nonNumbers ms) ≤ depths ms ∧ weights (nonNumbers ms) ≤ weights ms :=
  ⟨Expr.depths_nonNumbers_le ms, Expr.weights_filter_le _ ms⟩

/-- A power of a number is within the bounds of a power. -/
theorem powerBound_numberPower {b : Rat} {e r : Expr} (h : numberPower b e = .ok r) :
    PowerBound (num b) e r := by
  have number : ∀ q : Rat, PowerBound (num b) e (num q) := fun q =>
    ⟨by simp [Expr.depth], by simp [Expr.weight], by simp [Expr.weight]⟩
  unfold numberPower at h
  split at h
  · cases h
    exact number 1
  · split at h
    · rename_i q
      split at h
      · split at h
        · cases h
        · cases h
          exact number 0
      · unfold rationalPower at h
        split at h
        · cases h
          exact number _
        · rename_i hq
          split at h
          · cases h
          · split at h
            · cases h
              exact number _
            · cases h
              constructor
              · split
                · simp [Expr.depth]
                · simp only [Expr.depth]
                  refine Nat.le_trans
                    (Expr.depths_le_iff (n := 0) |>.mpr fun x hx => ?_) (Nat.zero_le _)
                  rcases List.mem_cons.mp (Expr.mem_sort.mp hx) with rfl | hx
                  · simp [Expr.depth]
                  · rw [List.mem_singleton.mp hx]
                    simp [Expr.depth]
              · split <;> simp [Expr.weight, Expr.weights_sort, weights]
              · intro hi
                simp [Expr.isInteger] at hi
                exact absurd hi hq
    · rename_i hne
      cases h
      refine ⟨by simp [Expr.depth_power, Expr.depth], by simp [Expr.weight], fun hi => ?_⟩
      exact absurd (Expr.isNum_of_isInteger hi) (by cases e <;> simp_all [Expr.isNum])

/-- Bases with several exponents weigh less than the factors they come from. -/
theorem baseWeight_lt {fs es : List Expr} {b : Expr} (h : (b, es) ∈ powersOf (opened fs))
    (hs : ∀ e, es = [e] → False) : baseWeight b < weights fs := by
  have h₁ := weight_mem_groups h
  have h₂ := cost_powersOf_le fs
  have h₃ : 1 ≤ es.length := length_mem_group _ h
  have h₄ : es.length ≠ 1 := fun hl => by
    obtain ⟨e, he⟩ := List.length_eq_one_iff.mp hl
    exact hs e he
  simp only at h₁
  omega

/-- What merged bases keep of the factors. -/
structure MergedBound (fs ms : List Expr) : Prop where
  depth : depths ms ≤ depths fs
  weight : weights ms ≤ weights fs
  weight_of_hasMerged : hasMerged (powersOf (opened fs)) → weights ms < weights fs
  eq_nil : (∀ f ∈ fs, f.isNum) → ms = []

/-- Bases that are merged group by group are within the bounds of the factors. -/
theorem MergedBound.ofPointwise {fs ms : List Expr}
    (h : Pointwise MergeBound (powersOf (opened fs)) ms) : MergedBound fs ms where
  depth := depths_merged_le (fun _ hg => hg) h
  weight := Nat.le_trans (weights_merged_le h).1 (cost_powersOf_le fs)
  weight_of_hasMerged hm := Nat.lt_of_lt_of_le ((weights_merged_le h).2 hm) (cost_powersOf_le fs)
  eq_nil hn := nil_of_pointwise (powersOf_eq_nil hn ▸ h)

/-- Putting merged bases together keeps the bounds. -/
theorem productBound_productOf {fs ms : List Expr} (h : MergedBound fs ms) (c : Rat) :
    ProductBound fs (productOf c (nonNumbers ms)) where
  depth := Nat.le_trans (measures_productOf c _).1 (Nat.le_trans (nonNumbers_measures ms).1 h.depth)
  weight :=
    Nat.le_trans (measures_productOf c _).2 (Nat.le_trans (nonNumbers_measures ms).2 h.weight)
  isNum hn := by
    rw [h.eq_nil hn]
    exact isNum_productOf_nil c

/-- Multiplying merged bases once more keeps the bounds. -/
theorem productBound_again {fs ms : List Expr} {c : Rat} {r : Expr} (h : MergedBound fs ms)
    (hr : ProductBound (nonNumbers ms ++ [num c]) r) : ProductBound fs r where
  depth := by
    have h₁ := hr.depth
    rw [depths_snoc_num] at h₁
    exact Nat.le_trans h₁ (Nat.le_trans (nonNumbers_measures ms).1 h.depth)
  weight := by
    have h₁ := hr.weight
    rw [weights_snoc_num] at h₁
    exact Nat.le_trans h₁ (Nat.le_trans (nonNumbers_measures ms).2 h.weight)
  isNum hn := hr.isNum fun f hf => by
    rw [h.eq_nil hn] at hf
    simp only [nonNumbers, List.filter_nil, List.nil_append, List.mem_singleton] at hf
    rw [hf]
    rfl

/-- Terms with a rational distributed over them are no deeper than before and weigh no more. -/
theorem measures_distributed {c : Rat} {ts rs : List Expr}
    (h : Pointwise (fun t r => ProductBound [num c, t] r) ts rs) :
    depths rs ≤ depths ts ∧ weights rs ≤ weights ts := by
  induction h with
  | nil => simp
  | cons hr _ ih =>
    have h₁ := hr.depth
    have h₂ := hr.weight
    simp only [depths, weights, Expr.depth, Expr.weight] at h₁ h₂ ⊢
    omega

/-- Distributing a number over the only merged base, a sum, keeps the bounds. -/
theorem productBound_distributed {fs ms ts rs : List Expr} {c : Rat} (h : MergedBound fs ms)
    (hs : nonNumbers ms = [.sum ts]) (hr : Pointwise (fun t r => ProductBound [num c, t] r) ts rs) :
    ProductBound fs (sum rs) where
  depth := by
    have h₁ := (nonNumbers_measures ms).1
    have h₂ := measures_distributed hr
    have h₃ := depth_sum_le rs
    have h₄ := h.depth
    simp only [hs, depths, Expr.depth] at h₁
    omega
  weight := by
    have h₁ := (nonNumbers_measures ms).2
    have h₂ := measures_distributed hr
    have h₃ := weight_sum_le rs
    have h₄ := h.weight
    simp only [hs, weights, Expr.weight] at h₁
    omega
  isNum hn := by simp [h.eq_nil hn, nonNumbers] at hs

/-- The exponent of a power of a power adds no more to the depth than the two it is made from. -/
theorem rank_exponent_le {a e r : Expr} (h : ProductBound [a, e] r) :
    r.rank ≤ max a.rank e.rank := by
  have h₁ := h.depth
  have h₂ := Expr.rank_le r
  simp only [depths] at h₁
  cases ha : a.isNum <;> cases he : e.isNum
  all_goals first
    | have h₃ := Expr.rank_of_not_isNum ha
    | have h₃ := Expr.depth_of_isNum ha
  all_goals first
    | have h₄ := Expr.rank_of_not_isNum he
    | have h₄ := Expr.depth_of_isNum he
  all_goals first
    | omega
    | simp [Expr.rank_of_isNum (h.isNum (by simp [ha, he]))]

/-- A power of a power keeps the bounds. -/
theorem powerBound_power {b a e x r : Expr} (hx : ProductBound [a, e] x) (hr : PowerBound b x r) :
    PowerBound (.power b a) e r where
  depth := by
    have h₁ := rank_exponent_le hx
    have h₂ := hr.depth
    rw [Expr.depth_power]
    omega
  weight := by
    have h₁ := hr.weight
    simp only [Expr.weight]
    omega
  weight_of_isInteger _ := hr.weight

/-- Whole powers of factors are no deeper than the factors and weigh no more. -/
theorem measures_powers {e : Expr} {fs rs : List Expr} (he : e.isInteger)
    (h : Pointwise (fun f r => PowerBound f e r) fs rs) :
    depths rs ≤ depths fs ∧ weights rs ≤ weights fs := by
  have hz := Expr.rank_of_isNum (Expr.isNum_of_isInteger he)
  induction h with
  | nil => simp
  | cons hr _ ih =>
    have h₁ := hr.depth
    have h₂ := hr.weight_of_isInteger he
    simp only [depths, weights]
    omega

/-- A power that goes to the factors keeps the bounds. -/
theorem powerBound_product {e r : Expr} {fs rs : List Expr} (he : e.isInteger)
    (hrs : Pointwise (fun f r => PowerBound f e r) fs rs) (hr : ProductBound rs r) :
    PowerBound (.product fs) e r := by
  obtain ⟨h₁, h₂⟩ := measures_powers he hrs
  have h₃ := hr.depth
  have h₄ := hr.weight
  refine ⟨?_, ?_, fun _ => ?_⟩ <;> simp only [Expr.depth, Expr.weight] <;> omega

/-- A power that stays as it is keeps the bounds. -/
theorem powerBound_bare {b e : Expr} (h : e.isInteger → 1 ≤ b.weight) :
    PowerBound b e (.power b e) where
  depth := Nat.le_of_eq (Expr.depth_power b e)
  weight := by simp only [Expr.weight]; omega
  weight_of_isInteger he := by
    have := h he
    simp only [Expr.weight]
    omega

/-- One is within the bounds of any power. -/
theorem powerBound_one (b e : Expr) : PowerBound b e (num 1) :=
  ⟨by simp [Expr.depth], by simp [Expr.weight], by simp [Expr.weight]⟩

/-- The base is within the bounds of its powers. -/
theorem powerBound_base (b e : Expr) : PowerBound b e b :=
  ⟨by omega, by omega, fun _ => Nat.le_refl _⟩

end StackAlgebra.Canonical
