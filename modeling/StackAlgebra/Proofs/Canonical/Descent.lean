import StackAlgebra.Canonical.Product
import Mathlib.Data.List.Forall2

/-!
# Induction over products and powers

A product asks for powers of merged bases, for a product of what these expand to, and for products
of a number with the terms of a sum; a power asks for a product of exponents and for powers of the
factors of its base. `product_induction` and `power_induction` say that whatever is handed on by
each of these calls holds of all products and powers. They follow the recursion of `boundedProduct`
and `boundedPower`, with the same measures, but speak of `product` and `power` alone.

The other statements take one run apart: `merged_of_product_eq_ok` and `multiply_eq_ok` name the
ways in which a product comes to its result.
-/

namespace StackAlgebra.Canonical

open StackAlgebra.Expr (num weights depths nonNumbers coefficientOf)

/-! ## Mapping -/

/-- A map that can fail succeeds exactly if it does so at each element. -/
theorem mapM_eq_ok_iff {α β ε : Type} {f : α → Except ε β} {l : List α} {rs : List β} :
    l.mapM f = .ok rs ↔ List.Forall₂ (fun a r => f a = .ok r) l rs := by
  induction l generalizing rs with
  | nil =>
    rw [List.mapM_nil, List.forall₂_nil_left_iff]
    exact ⟨fun h => (Except.ok.inj h).symm, fun h => h ▸ rfl⟩
  | cons a l ih =>
    rw [List.mapM_cons, List.forall₂_cons_left_iff]
    constructor
    · intro h
      -- A failure of the first step, or of a later one, is a failure of the whole.
      rcases hb : f a with e | b
      · rw [hb] at h
        cases h
      · rcases hbs : l.mapM f with e | bs
        · rw [hb, hbs] at h
          cases h
        · rw [hb, hbs] at h
          exact ⟨b, bs, rfl, ih.mp hbs, (Except.ok.inj h).symm⟩
    · rintro ⟨b, bs, hb, hbs, rfl⟩
      rw [hb, ih.mpr hbs]
      rfl

/-- A step after a success. -/
theorem bind_eq_ok_iff {α β ε : Type} {x : Except ε α} {f : α → Except ε β} {r : β} :
    x >>= f = .ok r ↔ ∃ a, x = .ok a ∧ f a = .ok r := by
  constructor
  · intro h
    cases x with
    | error e => cases h
    | ok a => exact ⟨a, rfl, h⟩
  · rintro ⟨a, rfl, h⟩
    exact h

/-- Lists whose elements are related one by one are related element by element. -/
theorem pointwise_of_forall₂ {α β : Type} {R : α → β → Prop} {l : List α} {rs : List β}
    (h : List.Forall₂ R l rs) : Pointwise R l rs := by
  induction h with
  | nil => exact .nil
  | cons h _ ih => exact .cons h ih

/-- A result comes from an element. -/
theorem exists_of_mem_forall₂ {α β : Type} {R : α → β → Prop} {l : List α} {rs : List β}
    (h : List.Forall₂ R l rs) {r : β} (hr : r ∈ rs) : ∃ a ∈ l, R a r := by
  induction h with
  | nil => simp at hr
  | @cons a b l rs hab _ ih =>
    rcases List.mem_cons.mp hr with rfl | hr
    · exact ⟨a, by simp, hab⟩
    · obtain ⟨c, hc, hcr⟩ := ih hr
      exact ⟨c, List.mem_cons_of_mem _ hc, hcr⟩

/-- What follows from a relation for the members of a list holds of them one by one. -/
theorem forall₂_imp_of_mem {α β : Type} {R S : α → β → Prop} {l : List α} {rs : List β}
    (h : List.Forall₂ R l rs) (hS : ∀ a ∈ l, ∀ r, R a r → S a r) : List.Forall₂ S l rs := by
  induction h with
  | nil => exact .nil
  | cons h _ ih =>
    exact .cons (hS _ List.mem_cons_self _ h) (ih fun a ha => hS a (List.mem_cons_of_mem _ ha))

/-- If each element has a result with a property and a value, all elements together have such
results. -/
theorem exists_forall₂ {α β γ ε : Type} {F : α → Except ε β} {P : β → Prop} {v : β → γ} {q : α → γ}
    {l : List α} (h : ∀ a ∈ l, ∃ r, F a = .ok r ∧ P r ∧ v r = q a) :
    ∃ rs, List.Forall₂ (fun a r => F a = .ok r) l rs ∧ (∀ r ∈ rs, P r) ∧ rs.map v = l.map q := by
  induction l with
  | nil => exact ⟨[], .nil, List.forall_mem_nil P, rfl⟩
  | cons a l ih =>
    obtain ⟨rs, h1, h2, h3⟩ := ih fun a ha => h a (List.mem_cons_of_mem _ ha)
    obtain ⟨r, hr, hv, hq⟩ := h a List.mem_cons_self
    refine ⟨r :: rs, .cons hr h1, List.forall_mem_cons.mpr ⟨hv, h2⟩, ?_⟩
    rw [List.map_cons, List.map_cons, hq, h3]

/-- What a putting in order gives is what was put in order. -/
theorem inOrder_eq_ok_iff {e r : Expr} : inOrder e = .ok r ↔ r = e ∧ e.hasOrder = true := by
  unfold inOrder
  split_ifs with h
  · simp [h, eq_comm]
  · simp [h]

/-! ## One run -/

/-- A product that does not vanish multiplies its merged bases. -/
theorem product_eq_multiply {fs ms : List Expr} (hc : coefficientOf (opened fs) ≠ 0)
    (hms : List.Forall₂ (fun g m => mergePower g = .ok m) (powersOf (opened fs)) ms) :
    product fs = multiply (coefficientOf (opened fs)) (powersOf (opened fs)) ms := by
  rw [product_eq, if_neg hc, mapM_eq_ok_iff.mpr hms]
  rfl

/-- A product that has a result vanishes, or multiplies its merged bases. -/
theorem merged_of_product_eq_ok {fs : List Expr} {r : Expr} (h : product fs = .ok r) :
    coefficientOf (opened fs) = 0 ∧ r = num 0 ∨ coefficientOf (opened fs) ≠ 0 ∧
      ∃ ms, List.Forall₂ (fun g m => mergePower g = .ok m) (powersOf (opened fs)) ms ∧
        multiply (coefficientOf (opened fs)) (powersOf (opened fs)) ms = .ok r := by
  rw [product_eq] at h
  by_cases hc : coefficientOf (opened fs) = 0
  · rw [if_pos hc] at h
    exact .inl ⟨hc, (Except.ok.inj h).symm⟩
  · rw [if_neg hc] at h
    obtain ⟨ms, hms, hr⟩ := bind_eq_ok_iff.mp h
    exact .inr ⟨hc, ms, mapM_eq_ok_iff.mp hms, hr⟩

/-- A merged base expanded into a product, whose factors have to be multiplied once more. -/
def Expanded (gs : List (Expr × List Expr)) (ms : List Expr) : Prop :=
  hasMerged gs = true ∧ (nonNumbers ms).any Expr.isProduct = true

/-- A number is distributed over the terms of a sum that stands alone. -/
theorem spread?_eq_some_iff {c : Rat} {fs ts : List Expr} :
    spread? c fs = some ts ↔ fs = [.sum ts] ∧ c ≠ 0 ∧ c ≠ 1 := by
  constructor
  · intro h
    have hfs := eq_of_spread? h
    subst hfs
    by_cases hc : c = 0 ∨ c = 1
    · simp [spread?, hc] at h
    · exact ⟨rfl, not_or.mp hc⟩
  · rintro ⟨rfl, h0, h1⟩
    simp [spread?, h0, h1]

/-- The ways in which merged bases come to their product `r`: expanded factors are multiplied once
more, a number is distributed over a sum, or the factors are put together. -/
inductive Multiplied (c : Rat) (gs : List (Expr × List Expr)) (ms : List Expr) (r : Expr) :
    Prop where
  | again (h : Expanded gs ms)
      (hr : product (nonNumbers ms ++ [num (c * coefficientOf ms)]) = .ok r)
  | spread (h : ¬ Expanded gs ms) (ts rs : List Expr) (hts : nonNumbers ms = [.sum ts])
      (h0 : c * coefficientOf ms ≠ 0) (h1 : c * coefficientOf ms ≠ 1)
      (hrs : List.Forall₂ (fun t r => product [num (c * coefficientOf ms), t] = .ok r) ts rs)
      (hr : r = sum rs) (ho : (sum rs).hasOrder = true)
  | gather (h : ¬ Expanded gs ms) (hs : spread? (c * coefficientOf ms) (nonNumbers ms) = none)
      (hr : r = productOf (c * coefficientOf ms) (nonNumbers ms))
      (ho : (productOf (c * coefficientOf ms) (nonNumbers ms)).hasOrder = true)

/-- Merged bases come to a product in one of the ways named. -/
theorem multiply_eq_ok {c : Rat} {gs : List (Expr × List Expr)} {ms : List Expr} {r : Expr}
    (h : multiply c gs ms = .ok r) : Multiplied c gs ms r := by
  unfold multiply at h
  split_ifs at h with he
  · exact .again he h
  · unfold distribute at h
    cases hs : spread? (c * coefficientOf ms) (nonNumbers ms) with
    | some ts =>
      rw [hs] at h
      obtain ⟨hts, h0, h1⟩ := spread?_eq_some_iff.mp hs
      obtain ⟨rs, hrs, hr⟩ := bind_eq_ok_iff.mp h
      obtain ⟨hr, ho⟩ := inOrder_eq_ok_iff.mp hr
      exact .spread he ts rs hts h0 h1 (mapM_eq_ok_iff.mp hrs) hr ho
    | none =>
      rw [hs] at h
      obtain ⟨hr, ho⟩ := inOrder_eq_ok_iff.mp h
      exact .gather he hs hr ho

/-- The ways named lead to a product. -/
theorem Multiplied.eq_ok {c : Rat} {gs : List (Expr × List Expr)} {ms : List Expr} {r : Expr}
    (h : Multiplied c gs ms r) : multiply c gs ms = .ok r := by
  unfold multiply
  cases h with
  | again h hr => exact (if_pos h).trans hr
  | spread h ts rs hts h0 h1 hrs hr ho =>
    refine (if_neg h).trans ?_
    rw [distribute, spread?_eq_some_iff.mpr ⟨hts, h0, h1⟩]
    exact bind_eq_ok_iff.mpr ⟨rs, mapM_eq_ok_iff.mpr hrs, inOrder_eq_ok_iff.mpr ⟨hr, ho⟩⟩
  | gather h hs hr ho =>
    refine (if_neg h).trans ?_
    rw [distribute, hs]
    exact inOrder_eq_ok_iff.mpr ⟨hr, ho⟩

/-- The power of a base with several exponents is that of their sum. -/
theorem mergePower_of_two_le {b : Expr} {es : List Expr} (h : 2 ≤ es.length) :
    mergePower (b, es) = inOrder (sum es) >>= power b := by
  match es, h with
  | _ :: _ :: _, _ => rfl

/-- The ways in which a power comes to its result `r`: the exponent is zero or one, the base is a
number, a power or a product, or the power stays as it is. -/
inductive Raised (b e r : Expr) : Prop where
  | zero (he : e.isZero = true) (hb : b.isZero = false) (hr : r = num 1)
  | one (h0 : e.isZero = false) (he : e.isOne = true) (hr : r = b)
  | number (h0 : e.isZero = false) (h1 : e.isOne = false) (q : Rat) (hb : b = num q)
      (hr : numberPower q e = .ok r)
  | inner (h0 : e.isZero = false) (h1 : e.isOne = false) (b' a x : Expr) (hb : b = .power b' a)
      (hx : product [a, e] = .ok x) (hr : power b' x = .ok r)
  | factors (h0 : e.isZero = false) (h1 : e.isOne = false) (fs rs : List Expr)
      (hb : b = .product fs)
      (he : e.isInteger = true) (hrs : List.Forall₂ (fun f r => power f e = .ok r) fs rs)
      (hr : product rs = .ok r)
  | stays (h0 : e.isZero = false) (h1 : e.isOne = false) (hn : b.isNum = false)
      (hp : ∀ b' a, b ≠ .power b' a) (hf : b.isProduct = true → e.isInteger = false)
      (hr : r = .power b e)

/-- A power comes to its result in one of the ways named. -/
theorem raised_of_power_eq_ok {b e r : Expr} (h : power b e = .ok r) : Raised b e r := by
  rw [power_eq] at h
  cases h0 : e.isZero with
  | true =>
    rw [h0, if_pos rfl] at h
    split_ifs at h with hb
    exact .zero h0 (Bool.not_eq_true _ ▸ hb) (Except.ok.inj h).symm
  | false =>
    rw [h0, if_neg Bool.false_ne_true] at h
    cases h1 : e.isOne with
    | true =>
      rw [h1, if_pos rfl] at h
      exact .one h0 h1 (Except.ok.inj h).symm
    | false =>
      rw [h1, if_neg Bool.false_ne_true] at h
      cases b with
      | num q => exact .number h0 h1 q rfl h
      | power b' a =>
        obtain ⟨x, hx, hr⟩ := bind_eq_ok_iff.mp h
        exact .inner h0 h1 b' a x rfl hx hr
      | product fs =>
        cases he : e.isInteger with
        | true =>
          simp only [he, if_true] at h
          obtain ⟨rs, hrs, hr⟩ := bind_eq_ok_iff.mp h
          exact .factors h0 h1 fs rs rfl he (mapM_eq_ok_iff.mp hrs) hr
        | false =>
          simp only [he, Bool.false_eq_true, if_false] at h
          exact .stays h0 h1 rfl (by simp) (fun _ => he) (Except.ok.inj h).symm
      | _ => exact .stays h0 h1 rfl (by simp) (by simp [Expr.isProduct]) (Except.ok.inj h).symm

/-- The ways named lead to a power. -/
theorem Raised.eq_ok {b e r : Expr} (h : Raised b e r) : power b e = .ok r := by
  rw [power_eq]
  cases h with
  | zero he hb hr => rw [if_pos he, hb, hr, if_neg Bool.false_ne_true]
  | one h0 he hr => rw [h0, if_neg Bool.false_ne_true, if_pos he, hr]
  | number h0 h1 q hb hr =>
    subst hb
    simpa only [h0, h1, Bool.false_eq_true, if_false] using hr
  | inner h0 h1 b' a x hb hx hr =>
    subst hb
    simpa only [h0, h1, Bool.false_eq_true, if_false] using bind_eq_ok_iff.mpr ⟨x, hx, hr⟩
  | factors h0 h1 fs rs hb he hrs hr =>
    subst hb
    simpa only [h0, h1, he, Bool.false_eq_true, if_false, if_true] using
      bind_eq_ok_iff.mpr ⟨rs, mapM_eq_ok_iff.mpr hrs, hr⟩
  | stays h0 h1 hn hp hf hr =>
    subst hr
    simp only [h0, h1, Bool.false_eq_true, if_false]
    cases b with
    | num q => cases hn
    | power b' a => exact absurd rfl (hp b' a)
    | product fs => simp only [hf rfl, Bool.false_eq_true, if_false]
    | _ => rfl

/-! ## Bounds -/

/-- A product keeps the bounds on its measures. -/
theorem productBound_of_eq_ok {fs : List Expr} {r : Expr} (h : product fs = .ok r) :
    ProductBound fs r := by
  unfold product at h
  rcases hb : boundedProduct fs with e | x
  · rw [hb] at h
    cases h
  · rw [hb] at h
    exact Except.ok.inj h ▸ x.2

/-- A power keeps the bounds on its measures. -/
theorem powerBound_of_eq_ok {b e r : Expr} (h : power b e = .ok r) : PowerBound b e r := by
  unfold power at h
  rcases hb : boundedPower b e with e | x
  · rw [hb] at h
    cases h
  · rw [hb] at h
    exact Except.ok.inj h ▸ x.2

/-- A merged base keeps the bounds on its measures. -/
theorem mergeBound_of_eq_ok {g : Expr × List Expr} {m : Expr} (hg : 1 ≤ g.2.length)
    (h : mergePower g = .ok m) : MergeBound g m := by
  obtain ⟨b, es⟩ := g
  match es, hg with
  | [e], _ => exact Except.ok.inj h ▸ mergeBound_bare b e
  | e₁ :: e₂ :: es, _ =>
    rw [mergePower_of_two_le (by simp)] at h
    obtain ⟨s, hs, hm⟩ := bind_eq_ok_iff.mp h
    rw [(inOrder_eq_ok_iff.mp hs).1] at hm
    exact .ofPower (powerBound_of_eq_ok hm)

/-- Merged bases keep the bounds on their measures. -/
theorem mergedBound_of_forall₂ {fs ms : List Expr}
    (h : List.Forall₂ (fun g m => mergePower g = .ok m) (powersOf (opened fs)) ms) :
    MergedBound fs ms := by
  refine .ofPointwise (pointwise_of_forall₂ (forall₂_imp_of_mem h ?_))
  exact fun g hg m hm => mergeBound_of_eq_ok (length_mem_group g hg) hm

/-! ## Induction -/

variable {P : List Expr → Prop} {Q : Expr → Expr → Prop}

/-- What a product may use of the products and powers that it asks for. -/
structure ProductCalls (P : List Expr → Prop) (Q : Expr → Expr → Prop) (fs : List Expr) : Prop where
  /-- Equal bases merge. -/
  merged : ∀ b es, (b, es) ∈ powersOf (opened fs) → 2 ≤ es.length → Q b (sum es)
  /-- Merged bases multiply once more. -/
  again : ∀ ms, List.Forall₂ (fun g m => mergePower g = .ok m) (powersOf (opened fs)) ms →
    hasMerged (powersOf (opened fs)) = true → ∀ c, P (nonNumbers ms ++ [num c])
  /-- A number is distributed over a sum. -/
  spread : ∀ ms, List.Forall₂ (fun g m => mergePower g = .ok m) (powersOf (opened fs)) ms →
    ∀ ts, nonNumbers ms = [.sum ts] → ∀ c, ∀ t ∈ ts, P [num c, t]

/-- What a power may use of the products and powers that it asks for. -/
structure PowerCalls (P : List Expr → Prop) (Q : Expr → Expr → Prop) (b e : Expr) : Prop where
  /-- The exponents of a power of a power multiply. -/
  exponents : ∀ b' a, b = .power b' a → P [a, e]
  /-- The inner base is raised to their product. -/
  inner : ∀ b' a x, b = .power b' a → product [a, e] = .ok x → Q b' x
  /-- An integer power goes to the factors. -/
  factor : ∀ fs, b = .product fs → e.isInteger = true → ∀ f ∈ fs, Q f e
  /-- The powers of the factors multiply. -/
  factors : ∀ fs rs, b = .product fs → e.isInteger = true →
    List.Forall₂ (fun f r => power f e = .ok r) fs rs → P rs

mutual
/-- What the calls of each product and power hand on holds of every product. -/
theorem product_induction (hP : ∀ fs, ProductCalls P Q fs → P fs)
    (hQ : ∀ b e, PowerCalls P Q b e → Q b e) (fs : List Expr) : P fs :=
  hP fs
    { merged := fun b es _hg _hl => power_induction hP hQ b (sum es)
      again := fun ms _hms _hm c => product_induction hP hQ (nonNumbers ms ++ [num c])
      spread := fun ms _hms _ts _hts c t _ht => product_induction hP hQ [num c, t] }
termination_by (depths fs, weights fs, 0)
decreasing_by
  · have h1 := base_depth_le _hg
    have h2 : (sum es).rank ≤ depths fs := rank_sum_le (exponent_rank_le _hg)
    have h3 := baseWeight_lt _hg fun e he => by
      rw [he] at _hl
      simp at _hl
    simp only [baseWeight] at h1 h3
    exact descends (by omega)
  · have hb := mergedBound_of_forall₂ _hms
    have h1 := hb.weight_of_hasMerged _hm
    have h2 := nonNumbers_measures ms
    have h3 := hb.depth
    rw [depths_snoc_num, weights_snoc_num]
    exact descends (by omega)
  · have hb := mergedBound_of_forall₂ _hms
    have h1 := Expr.weight_le_weights _ht
    have h2 := Expr.depth_le_depths _ht
    have h3 := nonNumbers_measures ms
    have h4 := hb.depth
    have h5 := hb.weight
    simp only [_hts, depths, weights, Expr.depth, Expr.weight] at h3 ⊢
    exact descends (by omega)

/-- What the calls of each product and power hand on holds of every power. -/
theorem power_induction (hP : ∀ fs, ProductCalls P Q fs → P fs)
    (hQ : ∀ b e, PowerCalls P Q b e → Q b e) (b e : Expr) : Q b e :=
  hQ b e
    { exponents := fun b' a _hb => product_induction hP hQ [a, e]
      inner := fun b' a x _hb _hx => power_induction hP hQ b' x
      factor := fun fs _hb _he f _hf => power_induction hP hQ f e
      factors := fun fs rs _hb _he _hrs => product_induction hP hQ rs }
termination_by (max b.depth e.rank, max 1 b.weight, sizeOf b)
decreasing_by
  · subst _hb
    have h1 := Expr.rank_le a
    simp only [depths, weights, Expr.depth_power, Expr.weight]
    cases ha : a.isNum <;> cases hn : e.isNum
    all_goals first
      | have h2 := Expr.rank_of_not_isNum ha
      | have h2 := And.intro (Expr.depth_of_isNum ha) (Expr.weight_of_isNum ha)
    all_goals first
      | have h3 := Expr.rank_of_not_isNum hn
      | have h3 := And.intro (Expr.depth_of_isNum hn) (Expr.weight_of_isNum hn)
    all_goals exact descends (by omega)
  · subst _hb
    have h1 := rank_exponent_le (productBound_of_eq_ok _hx)
    simp only [Expr.depth_power, Expr.weight]
    have h2 : sizeOf b' < sizeOf (Expr.power b' a) := by simp; omega
    exact descends (by omega)
  · subst _hb
    have h1 := Expr.weight_le_weights _hf
    have h2 := Expr.depth_le_depths _hf
    have h3 : sizeOf f < sizeOf (Expr.product fs) := by
      have := List.sizeOf_lt_of_mem _hf
      simp
      omega
    simp only [Expr.depth, Expr.weight]
    exact descends (by omega)
  · subst _hb
    obtain ⟨h1, h2⟩ := measures_powers _he
      (pointwise_of_forall₂ (_hrs.imp fun _ _ h => powerBound_of_eq_ok h))
    have h3 : 0 < sizeOf (Expr.product fs) := by
      rw [Expr.product.sizeOf_spec]
      omega
    simp only [Expr.depth, Expr.weight]
    exact descends (by omega)
end

end StackAlgebra.Canonical
