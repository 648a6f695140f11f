import StackAlgebra.Proofs.NormalForm.Basic

/-!
# Settled expressions

What it takes for an expression of each kind to be settled, and what can be said of settled
expressions without looking at how they came about. A settled term is its coefficient times a part
without coefficient (`splitCoefficient_term`), and the part can be given any other coefficient
(`IsMonic.settled_term`); a settled factor is a base and an exponent that can be put back together
(`bare_splitPower`).
-/

namespace StackAlgebra.Expr

open StackAlgebra.Canonical (term bare)

variable {e a b x : Expr} {es ts fs : List Expr} {q : Rat}

/-! ## Kinds -/

/-- Numbers are settled. -/
theorem settled_num (q : Rat) : (num q).IsSettled := .intro ⟨trivial, trivial⟩ (by simp)

/-- Constants are settled. -/
theorem settled_const (c : Constant) : (const c).IsSettled :=
  .intro ⟨trivial, trivial⟩ (by simp)

/-- Variables are settled. -/
theorem settled_var (x : String) : (var x).IsSettled := .intro ⟨trivial, trivial⟩ (by simp)

/-- When a sum is settled. -/
theorem settled_sum_iff :
    (sum ts).IsSettled ↔ NormalSum ts ∧ areComparable ts = true ∧ ∀ t ∈ ts, t.IsSettled := by
  constructor
  · intro h
    exact ⟨h.here.1, h.here.2, fun t ht => h.child ht⟩
  · rintro ⟨hn, hc, ht⟩
    exact .intro ⟨hn, hc⟩ ht

/-- When a product is settled. -/
theorem settled_product_iff : (product fs).IsSettled ↔
    ReducedProduct fs ∧ areComparable fs = true ∧ ∀ f ∈ fs, f.IsSettled := by
  constructor
  · intro h
    exact ⟨h.here.1, h.here.2, fun f hf => h.child hf⟩
  · rintro ⟨hn, hc, hf⟩
    exact .intro ⟨hn, hc⟩ hf

/-- When a power is settled. -/
theorem settled_power_iff :
    (power b e).IsSettled ↔ NormalPower b e ∧ b.IsSettled ∧ e.IsSettled := by
  constructor
  · intro h
    exact ⟨h.here.1, h.child (by simp), h.child (by simp)⟩
  · rintro ⟨hn, hb, he⟩
    exact .intro ⟨hn, trivial⟩ (.pair hb he)

/-- When a function of one operand is settled. -/
theorem settled_unary_iff {f : UnaryFunction} :
    (unary f x).IsSettled ↔ f = .abs ∧ NormalAbs x ∧ x.IsSettled := by
  constructor
  · intro h
    have hn := h.here.1
    cases f with
    | abs => exact ⟨rfl, hn, h.child (by simp)⟩
    | _ => exact hn.elim
  · rintro ⟨rfl, hn, hx⟩
    exact .intro ⟨hn, trivial⟩ fun c hc => List.mem_singleton.mp hc ▸ hx

/-- When a logarithm is settled. -/
theorem settled_log_iff : (log x b).IsSettled ↔
    Canonical.log x b = .ok (log x b) ∧ x.IsSettled ∧ b.IsSettled := by
  constructor
  · intro h
    exact ⟨h.here.2, h.child (by simp), h.child (by simp)⟩
  · rintro ⟨hf, hx, hb⟩
    exact .intro ⟨trivial, hf⟩ (.pair hx hb)

/-- When a remainder is settled. -/
theorem settled_mod_iff : (mod x b).IsSettled ↔
    Canonical.mod x b = .ok (mod x b) ∧ x.IsSettled ∧ b.IsSettled := by
  constructor
  · intro h
    exact ⟨h.here.2, h.child (by simp), h.child (by simp)⟩
  · rintro ⟨hf, hx, hb⟩
    exact .intro ⟨trivial, hf⟩ (.pair hx hb)

/-- When a function to or from angles is settled. -/
theorem settled_angle_iff {f : AngleFunction} {m : Option String} : (angle f x m).IsSettled ↔
    Canonical.angle f x m = .ok (angle f x m) ∧ x.IsSettled := by
  constructor
  · intro h
    exact ⟨h.here.2, h.child (by simp)⟩
  · rintro ⟨hf, hx⟩
    exact .intro ⟨trivial, hf⟩ fun c hc => List.mem_singleton.mp hc ▸ hx

/-! ## Order -/

/-- Settled expressions stand in order. -/
theorem IsSettled.inOrder (h : e.IsSettled) : e.Everywhere InOrder := by
  refine h.mono fun n hn => ?_
  cases n with
  | sum ts => exact hn.1.increasing.imp le_of_lt
  | product fs => exact hn.1.ordered
  | _ => trivial

/-- A settled expression can be told from its key. -/
theorem IsSettled.eq_of_key_eq (ha : a.IsSettled) (hb : b.IsSettled) (h : a.key = b.key) : a = b :=
  Expr.eq_of_key_eq ha.inOrder hb.inOrder h

/-- Settled expressions are the same only if they are equal. -/
theorem IsSettled.same_iff_eq (ha : a.IsSettled) (hb : b.IsSettled) : a.same b = true ↔ a = b := by
  rw [same_iff]
  exact ⟨ha.eq_of_key_eq hb, fun h => h ▸ rfl⟩

/-- Settled expressions that permute each other sort to one list. -/
theorem sort_eq_sort_of_settled (h : es.Perm ts) (hs : ∀ e ∈ es, e.IsSettled) : sort es = sort ts :=
  sort_eq_sort_of_perm h fun e he => (hs e he).inOrder

/-! ## Numbers among the factors -/

/-- The product of the numbers does not depend on the order of the factors. -/
theorem coefficientOf_perm (h : es.Perm fs) : coefficientOf es = coefficientOf fs := by
  induction h with
  | nil => rfl
  | cons x _ ih => cases x <;> simp [coefficientOf, ih]
  | swap x y l => cases x <;> cases y <;> simp [coefficientOf, mul_left_comm]
  | trans _ _ ih1 ih2 => exact ih1.trans ih2

/-- Settled factors and a number are settled. -/
theorem settled_append_num (h : ∀ f ∈ fs, f.IsSettled) (c : Rat) :
    ∀ f ∈ fs ++ [num c], f.IsSettled :=
  List.forall_mem_append.mpr ⟨h, List.forall_mem_singleton.mpr (settled_num c)⟩

/-- Factors that are no numbers make no coefficient. -/
theorem coefficientOf_of_not_isNum (h : ∀ f ∈ fs, f.isNum = false) : coefficientOf fs = 1 := by
  induction fs with
  | nil => rfl
  | cons f fs ih =>
    have hf := h f List.mem_cons_self
    cases f with
    | num q => cases hf
    | _ => exact ih fun f hf => h f (List.mem_cons_of_mem _ hf)

/-- The factors of a settled product are its coefficient, if that is not one, and the others. -/
theorem ReducedProduct.eq_cons (h : ReducedProduct fs) :
    coefficientOf fs = 1 ∧ (∀ f ∈ fs, f.isNum = false) ∨
      coefficientOf fs ≠ 0 ∧ coefficientOf fs ≠ 1 ∧
      fs = num (coefficientOf fs) :: nonNumbers fs := by
  -- A number comes first, and there is only one.
  rcases eq_of_one_num h.one_num h.ordered with hn | ⟨q, hq⟩
  · exact .inl ⟨coefficientOf_of_not_isNum hn, hn⟩
  · right
    have hc : coefficientOf fs = q := by
      rw [hq, coefficientOf, coefficientOf_of_not_isNum fun f => isNum_of_mem_nonNumbers, mul_one]
    have hmem : num q ∈ fs := by
      rw [hq]
      exact List.mem_cons_self
    rw [hc]
    exact ⟨h.num_ne_zero q hmem, h.num_ne_one q hmem, hq⟩

/-- The coefficient of a settled product is not zero. -/
theorem ReducedProduct.coefficient_ne_zero (h : ReducedProduct fs) : coefficientOf fs ≠ 0 := by
  rcases h.eq_cons with ⟨h1, -⟩ | ⟨h0, -⟩
  · rw [h1]
    exact one_ne_zero
  · exact h0

/-! ## Terms -/

/-- A settled expression that can stand in a term beside a coefficient. -/
structure IsMonic (r : Expr) : Prop where
  settled : r.IsSettled
  not_isSum : r.isSum = false
  not_isNum : ∀ f ∈ r.factors, f.isNum = false

/-- An expression that is no product is its own only factor. -/
theorem factors_of_not_isProduct (h : e.isProduct = false) : e.factors = [e] := by
  cases e with
  | product fs => cases h
  | _ => rfl

/-- Expressions that are no products are their own factors. -/
theorem flatMap_factors (h : ∀ f ∈ fs, f.isProduct = false) : fs.flatMap factors = fs := by
  rw [List.flatMap_congr fun f hf => factors_of_not_isProduct (h f hf)]
  exact List.flatMap_singleton' _

/-- What is neither a number nor a product nor a sum can stand beside a coefficient. -/
theorem isMonic_of_not_isProduct (he : e.IsSettled) (hn : e.isNum = false) (hs : e.isSum = false)
    (hp : e.isProduct = false) : e.IsMonic := by
  refine ⟨he, hs, ?_⟩
  rw [factors_of_not_isProduct hp]
  simpa using hn

/-- The factors of a settled expression are settled. -/
theorem IsSettled.factors (h : e.IsSettled) : ∀ f ∈ e.factors, f.IsSettled := by
  cases e with
  | product fs => exact (settled_product_iff.mp h).2.2
  | _ => simpa [Expr.factors] using h

/-- The factors of a settled expression stand in order. -/
theorem IsSettled.ordered_factors (h : e.IsSettled) : e.factors.Pairwise (· ≤ ·) := by
  cases e with
  | product fs => exact (settled_product_iff.mp h).1.ordered
  | _ => exact List.pairwise_singleton _ _

/-- A coefficient comes before the factors. -/
theorem IsMonic.sort_cons {r : Expr} (h : r.IsMonic) (c : Rat) :
    sort (num c :: r.factors) = num c :: r.factors := by
  refine sort_of_pairwise (List.pairwise_cons.mpr ⟨fun f hf => ?_, h.settled.ordered_factors⟩)
  exact (num_lt c (h.not_isNum f hf)).le

/-- A term with a coefficient other than one is a product. -/
theorem IsMonic.term_of_ne_one {r : Expr} (h : r.IsMonic) {c : Rat} (hc : c ≠ 1) :
    term c r = product (num c :: r.factors) := by
  rw [term, if_neg hc, h.sort_cons]

/-- What stands beside a coefficient is the product of its factors. -/
theorem IsMonic.productOf?_factors {r : Expr} (h : r.IsMonic) : productOf? r.factors = some r := by
  cases r with
  | product fs =>
    have hl := (settled_product_iff.mp h.settled).1.two_le
    match fs, hl with
    | _ :: _ :: _, _ => rfl
  | _ => rfl

/-- A term splits into the coefficient and the part that it was made from. -/
theorem IsMonic.splitCoefficient_term {r : Expr} (h : r.IsMonic) (c : Rat) :
    (term c r).splitCoefficient = (c, some r) := by
  by_cases hc : c = 1
  · rw [term, if_pos hc, hc]
    cases r with
    | num q => exact absurd (h.not_isNum (num q) (by simp [Expr.factors])) (by simp [isNum])
    | product fs =>
      have h1 := coefficientOf_of_not_isNum h.not_isNum
      have h2 := nonNumbers_of_not_isNum h.not_isNum
      have h3 := h.productOf?_factors
      simp only [Expr.factors] at h1 h2 h3
      rw [splitCoefficient, h1, h2, h3]
    | _ => rfl
  · rw [h.term_of_ne_one hc, splitCoefficient, coefficientOf,
      coefficientOf_of_not_isNum h.not_isNum, mul_one]
    have h2 : nonNumbers (num c :: r.factors) = r.factors := by
      rw [nonNumbers, List.filter_cons_of_neg (by simp [isNum]), ← nonNumbers,
        nonNumbers_of_not_isNum h.not_isNum]
    rw [h2, h.productOf?_factors]

/-- The part beside the coefficient of a term is the one that it was made from. -/
theorem IsMonic.rest?_term {r : Expr} (h : r.IsMonic) (c : Rat) : rest? (term c r) = some r := by
  rw [rest?, h.splitCoefficient_term]

/-- The factors of a settled expression are no products. -/
theorem IsSettled.not_isProduct_factors (h : e.IsSettled) :
    ∀ f ∈ e.factors, f.isProduct = false := by
  cases e with
  | product fs => exact (settled_product_iff.mp h).1.not_isProduct
  | _ => simp [Expr.factors, isProduct]

/-- The factors of a settled expression can be compared. -/
theorem IsSettled.areComparable_factors (h : e.IsSettled) : areComparable e.factors = true := by
  cases e with
  | product fs => exact (settled_product_iff.mp h).2.1
  | _ => rfl

/-- A settled expression has a factor. -/
theorem IsSettled.factors_ne_nil (h : e.IsSettled) : e.factors ≠ [] := by
  cases e with
  | product fs =>
    have hl := (settled_product_iff.mp h).1.two_le
    rintro (rfl : fs = [])
    simp at hl
  | _ => simp [Expr.factors]

/-- A settled expression whose only factor is a sum is that sum. -/
theorem IsSettled.isSum_of_factors (h : e.IsSettled) (hf : e.factors = [sum ts]) :
    e.isSum = true := by
  cases e with
  | product fs =>
    have hl := (settled_product_iff.mp h).1.two_le
    rw [show fs = [sum ts] from hf] at hl
    simp at hl
  | sum us => rfl
  | _ => simp [Expr.factors] at hf

/-- A coefficient other than zero can be given to a part without coefficient. -/
theorem IsMonic.settled_term {r : Expr} (h : r.IsMonic) {c : Rat} (h0 : c ≠ 0) :
    (term c r).IsSettled := by
  by_cases h1 : c = 1
  · rw [term, if_pos h1]
    exact h.settled
  · rw [h.term_of_ne_one h1, settled_product_iff]
    -- The coefficient is the only number.
    have hmem : ∀ q, num q ∈ num c :: r.factors → q = c := by
      intro q hq
      rcases List.mem_cons.mp hq with hq | hq
      · exact num.inj hq
      · exact absurd hq (num_not_mem h.not_isNum q)
    have hpos := List.length_pos_of_ne_nil h.settled.factors_ne_nil
    refine ⟨?_, areComparable_num_cons c h.settled.areComparable_factors, ?_⟩
    · constructor
      · simp only [List.length_cons]
        omega
      · simpa [isProduct] using h.settled.not_isProduct_factors
      · rw [List.filter_cons_of_pos rfl, filter_isNum_eq_nil h.not_isNum]
        rfl
      · exact fun q hq => hmem q hq ▸ h0
      · exact fun q hq => hmem q hq ▸ h1
      · have hs := pairwise_sort (num c :: r.factors)
        rwa [h.sort_cons] at hs
      · -- A single factor beside the number is no sum.
        intro q ts hp
        have hq : q = c := hmem q (hp.mem_iff.mpr List.mem_cons_self)
        rw [hq, List.perm_cons, List.perm_singleton] at hp
        have hs := h.settled.isSum_of_factors hp
        rw [h.not_isSum] at hs
        cases hs
    · intro f hf
      rcases List.mem_cons.mp hf with rfl | hf
      · exact settled_num c
      · exact h.settled.factors f hf

/-- The factors of a settled product that are no numbers make an expression that can stand beside a
coefficient. -/
theorem isMonic_of_nonNumbers {c : Rat} (h : (product (num c :: fs)).IsSettled)
    (hn : ∀ f ∈ fs, f.isNum = false) : ∃ r : Expr, r.IsMonic ∧ r.factors = fs := by
  obtain ⟨hr, hc, hs⟩ := settled_product_iff.mp h
  have hp : ∀ f ∈ fs, f.isProduct = false := fun f hf => hr.not_isProduct f (by simp [hf])
  -- A single factor stands for itself, and several make a product of their own.
  rcases fs with _ | ⟨f, _ | ⟨g, fs⟩⟩
  · exact absurd hr.two_le (by simp)
  · have hsum : f.isSum = false := by
      cases f with
      | sum ts => exact absurd (.refl _) (hr.not_scaled_sum c ts)
      | _ => rfl
    refine ⟨f, isMonic_of_not_isProduct (hs f (by simp)) (hn f (by simp)) hsum (hp f (by simp)), ?_⟩
    exact factors_of_not_isProduct (hp f (by simp))
  · refine ⟨product (f :: g :: fs), ⟨?_, rfl, hn⟩, rfl⟩
    have hno : ∀ q, num q ∉ f :: g :: fs := num_not_mem hn
    rw [settled_product_iff]
    refine ⟨?_, ?_, fun d hd => hs d (List.mem_cons_of_mem _ hd)⟩
    · refine ⟨by simp, hp, ?_, ?_, ?_, (List.pairwise_cons.mp hr.ordered).2, ?_⟩
      · rw [filter_isNum_eq_nil hn]
        simp
      · exact fun q hq => absurd hq (hno q)
      · exact fun q hq => absurd hq (hno q)
      · exact fun q ts hp => absurd (hp.mem_iff.mpr List.mem_cons_self) (hno q)
    · exact areComparable_of_sublist (List.sublist_cons_self _ _) hc

/-- A settled term is a coefficient other than zero and a part that can stand beside it. -/
theorem IsSettled.exists_term (h : e.IsSettled) (hn : e.isNum = false) (hs : e.isSum = false) :
    ∃ c r, c ≠ 0 ∧ r.IsMonic ∧ e = term c r := by
  cases hp : e.isProduct with
  | false => exact ⟨1, e, one_ne_zero, isMonic_of_not_isProduct h hn hs hp, rfl⟩
  | true =>
    cases e with
    | product fs =>
      obtain ⟨hr, -, -⟩ := settled_product_iff.mp h
      rcases hr.eq_cons with ⟨-, hn⟩ | ⟨h0, h1, hc⟩
      · exact ⟨1, product fs, one_ne_zero, ⟨h, rfl, hn⟩, rfl⟩
      · rw [hc] at h
        obtain ⟨r, hr, hf⟩ := isMonic_of_nonNumbers h fun f => isNum_of_mem_nonNumbers
        exact ⟨_, r, h0, hr, by rw [hr.term_of_ne_one h1, hf, ← hc]⟩
    | _ => cases hp

/-- A term with a coefficient is neither a number nor a sum. -/
theorem IsMonic.kind_term {r : Expr} (h : r.IsMonic) (c : Rat) :
    (term c r).isNum = false ∧ (term c r).isSum = false := by
  by_cases hc : c = 1
  · rw [term, if_pos hc]
    refine ⟨?_, h.not_isSum⟩
    cases r with
    | num q => exact absurd (h.not_isNum (num q) (by simp [Expr.factors])) (by simp [isNum])
    | _ => rfl
  · rw [h.term_of_ne_one hc]
    exact ⟨rfl, rfl⟩

/-! ## Factors -/

/-- A settled factor is its base to its exponent. -/
theorem IsSettled.bare_splitPower (h : e.IsSettled) : bare e.splitPower.1 e.splitPower.2 = e := by
  cases e with
  | power b a => simp [splitPower, bare, (settled_power_iff.mp h).1.exponent_ne_one]
  | _ => simp [splitPower, bare, isOne]

/-- Base and exponent of a settled factor are settled. -/
theorem IsSettled.splitPower (h : e.IsSettled) :
    e.splitPower.1.IsSettled ∧ e.splitPower.2.IsSettled := by
  cases e with
  | power b a => exact (settled_power_iff.mp h).2
  | _ => exact ⟨h, settled_num 1⟩

end StackAlgebra.Expr
