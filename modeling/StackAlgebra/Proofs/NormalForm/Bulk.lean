import StackAlgebra.Proofs.NormalForm.Function
import Mathlib.Algebra.Order.BigOperators.Group.List

/-!
# A measure that merging lowers

The `bulk` of an expression counts its atoms, exponents and operands included and numbers not.
Nothing that is done to settled expressions raises it (`bulk_sum_le`, `bulk_product_le`,
`bulk_power_le`), and two factors of the same base in a product lower it, since the base is left
only once (`bulk_product_lt`).
-/

namespace StackAlgebra.Expr

mutual
/-- The number of atoms in an expression. -/
def bulk : Expr → Nat
  | num _ => 0
  | const _ | var _ => 1
  | sum es | product es => bulks es
  | power b e => max 1 b.bulk + e.bulk
  | unary _ x | angle _ x _ => 1 + x.bulk
  | log x y | mod x y => 1 + x.bulk + y.bulk

/-- The number of atoms in expressions. -/
def bulks : List Expr → Nat
  | [] => 0
  | e :: es => e.bulk + bulks es
end

/-- A number has no bulk. -/
@[simp] theorem bulk_num (q : Rat) : (num q).bulk = 0 := rfl

/-- The bulk of a sum is that of its terms. -/
@[simp] theorem bulk_sum (es : List Expr) : (sum es).bulk = bulks es := rfl

/-- The bulk of a product is that of its factors. -/
@[simp] theorem bulk_product (es : List Expr) : (product es).bulk = bulks es := rfl

/-- A power adds the bulk of its exponent to that of its base, which counts for one at least. -/
@[simp] theorem bulk_power (b e : Expr) : (power b e).bulk = max 1 b.bulk + e.bulk := rfl

/-- A function adds one to the bulk of its operand. -/
@[simp] theorem bulk_unary (f : UnaryFunction) (x : Expr) : (unary f x).bulk = 1 + x.bulk := rfl

/-- A logarithm adds one to the bulk of argument and base. -/
@[simp] theorem bulk_log (x b : Expr) : (log x b).bulk = 1 + x.bulk + b.bulk := rfl

/-- A remainder adds one to the bulk of its operands. -/
@[simp] theorem bulk_mod (x d : Expr) : (mod x d).bulk = 1 + x.bulk + d.bulk := rfl

/-- A function of an angle adds one to the bulk of the angle. -/
@[simp] theorem bulk_angle (f : AngleFunction) (x : Expr) (m : Option String) :
    (angle f x m).bulk = 1 + x.bulk := rfl

/-- No expressions have no bulk. -/
@[simp] theorem bulks_nil : bulks [] = 0 := rfl

/-- The bulks of expressions add up. -/
@[simp] theorem bulks_cons (e : Expr) (es : List Expr) : bulks (e :: es) = e.bulk + bulks es := rfl

variable {e f : Expr} {es ds : List Expr}

/-- The bulk of expressions is the sum of the bulk of each one. -/
theorem bulks_eq_sum (es : List Expr) : bulks es = (es.map bulk).sum := by
  induction es with
  | nil => rfl
  | cons e es ih => rw [bulks_cons, ih, List.map_cons, List.sum_cons]

/-- The bulk of expressions does not depend on their order. -/
theorem bulks_perm (h : es.Perm ds) : bulks es = bulks ds := by
  rw [bulks_eq_sum, bulks_eq_sum]
  exact (h.map bulk).sum_eq

/-- The bulk of two lists of expressions. -/
theorem bulks_append (es ds : List Expr) : bulks (es ++ ds) = bulks es + bulks ds := by
  simp only [bulks_eq_sum, List.map_append, List.sum_append]

/-- Numbers have no bulk. -/
theorem bulk_of_isNum (h : e.isNum = true) : e.bulk = 0 := by
  obtain ⟨q, rfl⟩ := exists_eq_num h
  rfl

/-- A list has the bulk of what in it is no number. -/
theorem bulks_nonNumbers (es : List Expr) : bulks (nonNumbers es) = bulks es := by
  induction es with
  | nil => rfl
  | cons e es ih =>
    cases hn : e.isNum with
    | true =>
      rw [nonNumbers, List.filter_cons_of_neg (by simp [hn]), ← nonNumbers, ih, bulks_cons,
        bulk_of_isNum hn, Nat.zero_add]
    | false =>
      rw [nonNumbers, List.filter_cons_of_pos (by simp [hn]), ← nonNumbers, bulks_cons, ih,
        bulks_cons]

/-- Expressions that have no more bulk one by one have none together. -/
theorem bulks_le_of_forall₂ (h : List.Forall₂ (fun d e => e.bulk ≤ d.bulk) ds es) :
    bulks es ≤ bulks ds := by
  induction h with
  | nil => exact Nat.le_refl 0
  | cons h _ ih =>
    rw [bulks_cons, bulks_cons]
    exact Nat.add_le_add h ih

/-- A member has no more bulk than the list. -/
theorem bulk_le_bulks (h : e ∈ es) : e.bulk ≤ bulks es := by
  rw [bulks_eq_sum]
  exact List.le_sum_of_mem (List.mem_map_of_mem h)

/-- The factors of an expression have its bulk. -/
theorem bulks_factors (e : Expr) : bulks e.factors = e.bulk := by
  cases e <;> simp [factors]

/-- A child has no more bulk than the expression that it belongs to. -/
theorem bulk_le_of_mem_children {c : Expr} (h : c ∈ e.children) : c.bulk ≤ e.bulk := by
  cases e with
  | sum es | product es => exact bulk_le_bulks h
  | num _ | const _ | var _ => cases h
  | unary _ x | angle _ x _ =>
    simp only [List.mem_singleton.mp h, bulk_unary, bulk_angle]
    omega
  | power x y | log x y | mod x y =>
    simp only [children_power, children_log, children_mod, List.mem_cons, List.not_mem_nil,
      or_false] at h
    simp only [bulk_power, bulk_log, bulk_mod]
    rcases h with rfl | rfl <;> omega

/-- A list that has two members, at most one of them a number, has one that is no number. -/
theorem exists_not_isNum (h2 : 2 ≤ es.length) (hn : (es.filter isNum).length ≤ 1) :
    ∃ e ∈ es, e.isNum = false := by
  have hp : (es.filter isNum ++ nonNumbers es).length = es.length :=
    (List.filter_append_perm isNum es).length_eq
  rw [List.length_append] at hp
  -- At most one of the two is taken away as a number.
  have hpos : 0 < (nonNumbers es).length := by omega
  obtain ⟨e, he⟩ := List.exists_mem_of_length_pos hpos
  exact ⟨e, mem_of_mem_nonNumbers he, isNum_of_mem_nonNumbers he⟩

/-- A settled expression that is no number has some bulk. -/
theorem IsSettled.bulk_pos (h : e.IsSettled) (hn : e.isNum = false) : 1 ≤ e.bulk := by
  induction e using induction_on_children with
  | step e ih =>
    -- A sum or product has a member that is no number.
    have member (es : List Expr) (hes : ∀ x ∈ es, x ∈ e.children) (h2 : 2 ≤ es.length)
        (h1 : (es.filter isNum).length ≤ 1) : 1 ≤ bulks es := by
      obtain ⟨x, hx, hxn⟩ := exists_not_isNum h2 h1
      exact (ih x (hes x hx) (h.child (hes x hx)) hxn).trans (bulk_le_bulks hx)
    cases e with
    | num q => cases hn
    | sum ts =>
      have hs := (settled_sum_iff.mp h).1
      exact member ts (fun _ hx => hx) hs.two_le hs.one_num
    | product fs =>
      have hs := (settled_product_iff.mp h).1
      exact member fs (fun _ hx => hx) hs.two_le hs.one_num
    | const c | var x => exact Nat.le_refl 1
    | _ =>
      simp only [bulk_power, bulk_unary, bulk_log, bulk_mod, bulk_angle]
      omega

/-- A settled factor has the bulk of its base and its exponent. -/
theorem IsSettled.bulk_splitPower (h : e.IsSettled) (hn : e.isNum = false) :
    e.bulk = max 1 e.splitPower.1.bulk + e.splitPower.2.bulk := by
  have hpos := h.bulk_pos hn
  cases e with
  | num q => cases hn
  | power b a => rfl
  | _ => exact (max_eq_right hpos).symm

end StackAlgebra.Expr

namespace StackAlgebra.Canonical

open StackAlgebra.Expr (num nonNumbers isNum coefficientOf bulk bulks)
open scoped List

variable {ts fs ms : List Expr} {b e r x : Expr}

/-! ## Sums -/

/-- A coefficient adds no bulk to a term. -/
theorem bulk_term (c : Rat) (r : Expr) : (term c r).bulk = r.bulk := by
  unfold term
  split_ifs
  · rfl
  · rw [Expr.bulk_product, Expr.bulks_perm (Expr.perm_sort _), Expr.bulks_cons, Expr.bulk_num,
      Nat.zero_add, Expr.bulks_factors]

/-- Opened terms have the bulk of what they were in. -/
theorem bulks_summandsOf (h : ∀ t ∈ ts, t.IsSettled) : bulks (summandsOf ts) = bulks ts := by
  induction ts with
  | nil => rfl
  | cons t ts ih =>
    have hs : bulks (summands t) = t.bulk := by
      cases t with
      | sum us =>
        have hn := (Expr.settled_sum_iff.mp (h _ List.mem_cons_self)).1.not_isSum
        rw [summands, summandsOf_of_not_isSum hn, Expr.bulk_sum]
      | _ => rw [summands_of_not_isSum rfl, Expr.bulks_cons, Expr.bulks_nil, Nat.add_zero]
    rw [summandsOf, Expr.bulks_append, hs, ih fun u hu => h u (List.mem_cons_of_mem _ hu),
      Expr.bulks_cons]

/-- What merges from groups has no more bulk than their labels. -/
theorem bulks_mergeLike_le (gs : List (Expr × List Rat)) :
    bulks (gs.filterMap mergeLike) ≤ costOf (fun g => g.1.bulk) gs := by
  induction gs with
  | nil => exact Nat.le_refl 0
  | cons g gs ih =>
    rw [costOf]
    cases hm : mergeLike g with
    | none =>
      rw [List.filterMap_cons_none hm]
      omega
    | some t =>
      obtain ⟨-, rfl⟩ := mergeLike_eq_some hm
      rw [List.filterMap_cons_some hm, Expr.bulks_cons, bulk_term]
      omega

/-- The labels of terms have the bulk of the terms. -/
theorem cost_labelled (h : AreTerms ts) : costOf (fun x => x.1.bulk) (labelled ts) = bulks ts := by
  rw [labelled_eq_map h, ← Expr.bulks_nonNumbers]
  have hterm : ∀ t ∈ nonNumbers ts, (labelOf t).1.bulk = t.bulk := by
    intro t ht
    obtain ⟨-, -, -, ht⟩ := labelOf_spec (h t (Expr.mem_of_mem_nonNumbers ht))
      (Expr.isNum_of_mem_nonNumbers ht)
    rw [← bulk_term (labelOf t).2, ht]
  generalize nonNumbers ts = us at hterm
  induction us with
  | nil => rfl
  | cons u us ih =>
    rw [List.map_cons, costOf, ih fun t ht => hterm t (List.mem_cons_of_mem _ ht), bulks,
      hterm u List.mem_cons_self]

/-- A sum of settled expressions has no more bulk than these. -/
theorem bulk_sum_le (h : ∀ t ∈ ts, t.IsSettled) : (sum ts).bulk ≤ bulks ts := by
  have hterms := areTerms_reverse h
  -- Merging leaves each part without coefficient once, and numbers have no bulk.
  have hmerged : bulks (mergedTerms (summandsOf ts).reverse) ≤ bulks ts := by
    have h1 := bulks_mergeLike_le (group (labelled (summandsOf ts).reverse))
    have h2 := cost_labels_group_le bulk (labelled (summandsOf ts).reverse)
    have h3 := cost_labelled hterms
    rw [Expr.bulks_perm (List.reverse_perm _), bulks_summandsOf h] at h3
    have hnum : ∀ c : Rat, bulks (if c = 0 then [] else [num c]) = 0 := by
      intro c
      split_ifs <;> rfl
    rw [mergedTerms, Expr.bulks_append, hnum]
    omega
  refine le_trans ?_ hmerged
  rw [sum]
  generalize mergedTerms (summandsOf ts).reverse = us
  rcases us with _ | ⟨t, _ | ⟨u, us⟩⟩
  · exact Nat.le_refl 0
  · exact Nat.le_add_right _ _
  · show (Expr.sum (Expr.sort _)).bulk ≤ _
    rw [Expr.bulk_sum, Expr.bulks_perm (Expr.perm_sort _)]

/-! ## Factors -/

/-- Opened factors have the bulk of what they were in. -/
theorem bulks_opened (h : ∀ f ∈ fs, f.IsSettled) : bulks (opened fs) = bulks fs := by
  rw [opened, Expr.bulks_perm (List.reverse_perm _)]
  induction fs with
  | nil => rfl
  | cons f fs ih =>
    have hs : bulks (multiplicands f) = f.bulk := by
      cases f with
      | product gs =>
        have hn := (Expr.settled_product_iff.mp (h _ List.mem_cons_self)).1.not_isProduct
        rw [multiplicands, multiplicandsOf_of_not_isProduct hn, Expr.bulk_product]
      | _ => rw [multiplicands_of_not_isProduct rfl, Expr.bulks_cons, Expr.bulks_nil, Nat.add_zero]
    rw [multiplicandsOf, Expr.bulks_append, hs, ih fun u hu => h u (List.mem_cons_of_mem _ hu),
      Expr.bulks_cons]

/-- What is put together has the bulk of its factors. -/
theorem bulk_productOf_le (c : Rat) (fs : List Expr) : (productOf c fs).bulk ≤ bulks fs := by
  have hcollapse : ∀ gs, (collapse gs).bulk ≤ bulks gs := by
    intro gs
    match gs with
    | [] => exact Nat.le_refl 0
    | [f] => exact Nat.le_add_right _ _
    | f :: g :: gs =>
      rw [collapse_of_two_le (by simp), Expr.bulk_product, Expr.bulks_perm (Expr.perm_sort _)]
  unfold productOf
  split_ifs
  · exact Nat.zero_le _
  · exact hcollapse fs
  · have h1 := hcollapse (fs ++ [num c])
    rwa [Expr.bulks_append, Expr.bulks_cons, Expr.bulks_nil, Expr.bulk_num] at h1

/-- The bulk of a base with each of its exponents. -/
def groupBulk (g : Expr × List Expr) : Nat :=
  (g.2.map fun e => max 1 g.1.bulk + e.bulk).sum

/-- Settled factors have the bulk of their bases with the exponents. -/
theorem sum_groupBulk (h : AreFactors fs) : ((powersOf fs).map groupBulk).sum = bulks fs := by
  have hsum := sum_group (hasKeyedLabels_powers h) fun x => max 1 x.1.bulk + x.2.bulk
  have hfactor : (nonNumbers fs).map
      ((fun x : Expr × Expr => max 1 x.1.bulk + x.2.bulk) ∘ Expr.splitPower) =
        (nonNumbers fs).map bulk := by
    refine List.map_congr_left fun f hf => ?_
    exact ((h f (Expr.mem_of_mem_nonNumbers hf)).1.bulk_splitPower
      (Expr.isNum_of_mem_nonNumbers hf)).symm
  rw [List.map_map, hfactor, ← Expr.bulks_eq_sum, Expr.bulks_nonNumbers] at hsum
  exact hsum

/-- Factors of which some base is merged have some bulk. -/
theorem bulks_pos_of_hasMerged (h : AreFactors fs) (hm : hasMerged (powersOf fs) = true) :
    0 < bulks fs := by
  obtain ⟨g, hg, -⟩ := List.any_eq_true.mp hm
  obtain ⟨e, he⟩ := List.exists_mem_of_length_pos (length_mem_group g hg)
  have hone : max 1 g.1.bulk + e.bulk ≤ groupBulk g :=
    List.le_sum_of_mem (List.mem_map_of_mem (f := fun e => max 1 g.1.bulk + e.bulk) he)
  have hle : groupBulk g ≤ bulks fs := by
    rw [← sum_groupBulk h]
    exact List.le_sum_of_mem (List.mem_map_of_mem hg)
  omega

/-- A merged base has no more bulk than with its exponents, and less if there are several. -/
theorem bulk_mergePower_le (h : AreFactors fs) {g : Expr × List Expr} {m : Expr}
    (hg : g ∈ powersOf fs) (hm : mergePower g = .ok m)
    (hpower : 2 ≤ g.2.length → power g.1 (sum g.2) = .ok m →
      m.bulk ≤ max 1 g.1.bulk + (sum g.2).bulk) :
    m.bulk ≤ groupBulk g ∧ (2 ≤ g.2.length → m.bulk < groupBulk g) := by
  have hpos := length_mem_group g hg
  have hbulk : groupBulk g = g.2.length * max 1 g.1.bulk + bulks g.2 := by
    rw [groupBulk, List.sum_map_add, List.map_const', List.sum_replicate_nat,
      ← Expr.bulks_eq_sum]
  rcases mergePower_eq_ok h hg hm with ⟨hmf, hlen⟩ | ⟨hlen, -, hpow⟩
  -- A base with one exponent is the factor that it came from.
  · refine ⟨?_, fun h2 => absurd h2 (by omega)⟩
    obtain ⟨b, es⟩ := g
    obtain ⟨e, rfl⟩ := List.length_eq_one_iff.mp hlen
    obtain ⟨f, hf, hfe⟩ := exists_factor h hg (List.mem_singleton.mpr rfl)
    have hs := (h f (Expr.mem_of_mem_nonNumbers hf)).1
    have hfm : f = m := by
      rw [← hs.bare_splitPower, hfe]
      exact Except.ok.inj hm
    rw [← hfm, hs.bulk_splitPower (Expr.isNum_of_mem_nonNumbers hf), hfe]
    exact Nat.le_refl _
  -- Of several exponents the base is counted once, and their sum adds nothing.
  · have h1 := hpower hlen hpow
    have h2 := bulk_sum_le (settled_group h hg).2
    have h3 : 2 * max 1 g.1.bulk ≤ g.2.length * max 1 g.1.bulk := Nat.mul_le_mul_right _ hlen
    rw [hbulk]
    constructor
    · omega
    · intro _
      omega

/-- Merged bases have no more bulk than the factors, and less if some base is merged. -/
theorem bulks_merged_le {gs : List (Expr × List Expr)}
    (h : List.Forall₂
      (fun g m => m.bulk ≤ groupBulk g ∧ (2 ≤ g.2.length → m.bulk < groupBulk g)) gs ms) :
    bulks ms ≤ (gs.map groupBulk).sum ∧
      (hasMerged gs = true → bulks ms < (gs.map groupBulk).sum) := by
  induction h with
  | nil => simp [hasMerged]
  | @cons g m gs ms hg _ ih =>
    rw [Expr.bulks_cons, List.map_cons, List.sum_cons]
    refine ⟨by omega, fun hm => ?_⟩
    rw [hasMerged, List.any_cons, Bool.or_eq_true, decide_eq_true_eq] at hm
    rcases hm with hm | hm
    · have := hg.2 hm
      omega
    · have := ih.2 hm
      omega

/-! ## Products and powers -/

/-- A product has no more bulk than its factors, and less if some base is merged. -/
def BulkOfProduct (fs : List Expr) : Prop :=
  (∀ f ∈ fs, f.IsSettled) → ∀ r, product fs = .ok r →
    r.bulk ≤ bulks fs ∧ (hasMerged (powersOf (opened fs)) = true → r.bulk < bulks fs)

/-- A power has no more bulk than its base, as a factor, and exponent; an integer power none more
than its base. -/
def BulkOfPower (b e : Expr) : Prop :=
  b.IsSettled → e.IsSettled → ∀ r, power b e = .ok r →
    r.bulk ≤ max 1 b.bulk + e.bulk ∧ (e.isInteger = true → r.bulk ≤ b.bulk)

/-- Merged bases have no more bulk than the factors, and less if some base is merged, if the powers
of several exponents are bounded. -/
theorem bulks_merged_of_calls (h : AreFactors fs)
    (calls : ∀ b es, (b, es) ∈ powersOf fs → 2 ≤ es.length → BulkOfPower b (sum es))
    (hms : List.Forall₂ (fun g m => mergePower g = .ok m) (powersOf fs) ms) :
    bulks ms ≤ bulks fs ∧ (hasMerged (powersOf fs) = true → bulks ms < bulks fs) := by
  rw [← sum_groupBulk h]
  refine bulks_merged_le (forall₂_imp_of_mem hms fun g hg m hm => ?_)
  refine bulk_mergePower_le h hg hm fun hlen hpow => ?_
  obtain ⟨hb, hes⟩ := settled_group h hg
  rcases mergePower_eq_ok h hg hm with ⟨-, h1⟩ | ⟨-, ho, -⟩
  · omega
  · exact (calls g.1 g.2 hg hlen hb (settled_sum hes ho) m hpow).1

/-- Multiplying merged bases adds no bulk, if the products of these are bounded. -/
theorem bulk_multiply_of_calls (calls : ProductCalls BulkOfProduct BulkOfPower fs) {c : Rat}
    (hms : List.Forall₂ (fun g m => mergePower g = .ok m) (powersOf (opened fs)) ms)
    (hs : ∀ m ∈ nonNumbers ms, m.IsSettled) (h : Multiplied c (powersOf (opened fs)) ms r) :
    r.bulk ≤ bulks (nonNumbers ms) := by
  cases h with
  | again he hr =>
    have hagain := (calls.again ms hms he.1 _ (Expr.settled_append_num hs _) r hr).1
    rwa [Expr.bulks_append, Expr.bulks_cons, Expr.bulks_nil, Expr.bulk_num, Nat.add_zero] at hagain
  | spread he ts rs hts h0 h1 hrs hr ho =>
    have hts' := (Expr.settled_sum_iff.mp (hs (.sum ts) (by rw [hts]; simp))).2.2
    have hpair : ∀ t ∈ ts, ∀ x ∈ [num (c * coefficientOf ms), t], x.IsSettled := by
      intro t ht
      simpa using ⟨Expr.settled_num _, hts' t ht⟩
    have hrs' : ∀ x ∈ rs, x.IsSettled := by
      intro x hx
      obtain ⟨t, ht, hx⟩ := exists_of_mem_forall₂ hrs hx
      exact settled_product (hpair t ht) hx
    -- The number adds nothing to any term.
    have hle : bulks rs ≤ bulks ts := by
      refine Expr.bulks_le_of_forall₂ (forall₂_imp_of_mem hrs fun t ht x hx => ?_)
      have hstep := (calls.spread ms hms ts hts _ t ht (hpair t ht) x hx).1
      simpa using hstep
    rw [hr, hts, Expr.bulks_cons, Expr.bulks_nil, Expr.bulk_sum]
    exact (bulk_sum_le hrs').trans hle
  | gather he hs hr ho =>
    rw [hr]
    exact bulk_productOf_le _ _

/-- The bulk of a product is bounded if that of all its calls is. -/
theorem bulkOfProduct_of_calls (calls : ProductCalls BulkOfProduct BulkOfPower fs) :
    BulkOfProduct fs := by
  intro hfs r h
  have hos := areFactors_opened hfs
  have hopened := bulks_opened hfs
  rcases merged_of_product_eq_ok h with ⟨-, rfl⟩ | ⟨-, ms, hms, hr⟩
  · refine ⟨Nat.zero_le _, fun hm => ?_⟩
    rw [← hopened]
    exact bulks_pos_of_hasMerged hos hm
  obtain ⟨hle, hlt⟩ := bulks_merged_of_calls hos calls.merged hms
  rw [hopened] at hle hlt
  have hsettled : ∀ m ∈ nonNumbers ms, m.IsSettled := fun m hm =>
    settled_merged hos hms m (Expr.mem_of_mem_nonNumbers hm)
  have hmul := bulk_multiply_of_calls calls hms hsettled (multiply_eq_ok hr)
  rw [Expr.bulks_nonNumbers] at hmul
  exact ⟨hmul.trans hle, fun hm => hmul.trans_lt (hlt hm)⟩

/-- A power of a number has no more bulk than its exponent, but for one atom; an integer power
none. -/
theorem bulk_numberPower_le {q : Rat} (h : numberPower q e = .ok r) :
    r.bulk ≤ 1 + e.bulk ∧ (e.isInteger = true → r.bulk = 0) := by
  cases numberPower_eq_ok h with
  | number p hr => exact hr ▸ ⟨Nat.zero_le _, fun _ => rfl⟩
  | stays _ hn hr =>
    rw [hr, isInteger_of_not_isNum hn]
    exact ⟨Nat.le_refl _, fun h => by cases h⟩
  | root f c he hden _ hr _ =>
    rw [hr, he, bulk_term]
    exact ⟨Nat.le_refl 1, fun hi => absurd (by simpa [Expr.isInteger] using hi) hden⟩

/-- The bulk of a power is bounded if that of all its calls is. -/
theorem bulkOfPower_of_calls (calls : PowerCalls BulkOfProduct BulkOfPower b e) :
    BulkOfPower b e := by
  intro hb he r h
  cases raised_of_power_eq_ok h with
  | zero _ _ hr =>
    rw [hr]
    exact ⟨Nat.zero_le _, fun _ => Nat.zero_le _⟩
  | one _ _ hr =>
    rw [hr]
    exact ⟨by omega, fun _ => Nat.le_refl _⟩
  | number _ _ q hq hr =>
    obtain ⟨h1, h2⟩ := bulk_numberPower_le hr
    rw [hq]
    exact ⟨h1, fun hi => (h2 hi).le⟩
  | inner _ _ b' a x hb' hx hr =>
    rw [hb', Expr.settled_power_iff] at hb
    obtain ⟨-, hb, ha⟩ := hb
    have hae : ∀ f ∈ [a, e], f.IsSettled := by simpa using ⟨ha, he⟩
    -- An integer exponent has no bulk, so that the product of exponents has that of the inner one.
    have h1 := (calls.exponents b' a hb' hae x hx).1
    have h2 := (calls.inner b' a x hb' hx hb (settled_product hae hx) r hr).1
    rw [hb']
    simp only [Expr.bulk_power, Expr.bulks_cons, Expr.bulks_nil] at h1 ⊢
    refine ⟨by omega, fun hi => ?_⟩
    have h3 := Expr.bulk_of_isNum (Expr.isNum_of_isInteger hi)
    omega
  | factors _ _ fs rs hb' hi hrs hr =>
    rw [hb', Expr.settled_product_iff] at hb
    have hrs' : ∀ x ∈ rs, x.IsSettled := by
      intro x hx
      obtain ⟨f, hf, hx⟩ := exists_of_mem_forall₂ hrs hx
      exact settled_power (hb.2.2 f hf) he hx
    -- An integer power of a factor has no more bulk than the factor.
    have hle : bulks rs ≤ bulks fs :=
      Expr.bulks_le_of_forall₂ (forall₂_imp_of_mem hrs fun f hf x hx =>
        (calls.factor fs hb' hi f hf (hb.2.2 f hf) he x hx).2 hi)
    have h1 := (calls.factors fs rs hb' hi hrs hrs' r hr).1
    rw [hb', Expr.bulk_product]
    exact ⟨by omega, fun _ => h1.trans hle⟩
  | stays h0 h1 hn hp hf hr =>
    rw [hr, Expr.bulk_power]
    refine ⟨Nat.le_refl _, fun hi => ?_⟩
    have h2 := hb.bulk_pos hn
    have h3 := Expr.bulk_of_isNum (Expr.isNum_of_isInteger hi)
    omega

/-- A product of settled expressions has no more bulk than these. -/
theorem bulk_product_le (hfs : ∀ f ∈ fs, f.IsSettled) (h : product fs = .ok r) :
    r.bulk ≤ bulks fs :=
  (product_induction (fun _ => bulkOfProduct_of_calls) (fun _ _ => bulkOfPower_of_calls)
    fs hfs r h).1

/-- A product of settled expressions has less bulk than these if some base is merged. -/
theorem bulk_product_lt (hfs : ∀ f ∈ fs, f.IsSettled) (h : product fs = .ok r)
    (hm : hasMerged (powersOf (opened fs)) = true) : r.bulk < bulks fs :=
  (product_induction (fun _ => bulkOfProduct_of_calls) (fun _ _ => bulkOfPower_of_calls)
    fs hfs r h).2 hm

/-- A power of settled expressions has no more bulk than these. -/
theorem bulk_power_le (hb : b.IsSettled) (he : e.IsSettled) (h : power b e = .ok r) :
    r.bulk ≤ (Expr.power b e).bulk :=
  (power_induction (fun _ => bulkOfProduct_of_calls) (fun _ _ => bulkOfPower_of_calls)
    b e hb he r h).1

/-! ## Functions -/

/-- An absolute value has no more bulk than is written. -/
theorem bulk_abs_le (hx : x.IsSettled) (h : abs x = .ok r) : r.bulk ≤ 1 + x.bulk := by
  cases abs_eq_ok hx h with
  | number q _ hr => exact hr ▸ Nat.zero_le _
  | nonnegative _ _ hr =>
    rw [hr]
    omega
  | stays _ _ _ hr => exact hr ▸ Nat.le_refl _
  | scaled c rest hm hx hr =>
    have h1 := bulk_product_le (by simpa using ⟨Expr.settled_num _, settled_absRest hm⟩) hr
    have h2 : (absRest rest).bulk ≤ 1 + rest.bulk := by
      unfold absRest
      split_ifs
      · omega
      · exact Nat.le_refl _
    rw [hx, bulk_term]
    simp only [Expr.bulks_cons, Expr.bulks_nil, Expr.bulk_num] at h1
    omega

/-- A logarithm has no more bulk than is written. -/
theorem bulk_log_le (h : log x b = .ok r) : r.bulk ≤ 1 + x.bulk + b.bulk := by
  rcases log_eq_ok h with ⟨k, rfl⟩ | ⟨b', rfl⟩ | rfl
  · exact Nat.zero_le _
  · rw [Expr.bulk_power]
    omega
  · exact Nat.le_refl _

/-- A remainder has no more bulk than is written. -/
theorem bulk_mod_le {d : Expr} (h : mod x d = .ok r) : r.bulk ≤ 1 + x.bulk + d.bulk := by
  rcases mod_eq_ok h with ⟨q, rfl⟩ | rfl
  · exact Nat.zero_le _
  · exact Nat.le_refl _

/-- A tabulated value is a number or has the bulk of one root. -/
theorem bulk_tabulated_le (h : e ∈ tabulated) : e.bulk ≤ 1 := by
  have hall : ∀ e ∈ tabulated, e.bulk ≤ 1 := by decide
  exact hall e h

/-- A function to or from angles has no more bulk than is written. -/
theorem bulk_angle_le {f : AngleFunction} {m : Option String} (h : angle f x m = .ok r) :
    r.bulk ≤ 1 + x.bulk := by
  have hstands : r = .angle f x m → r.bulk ≤ 1 + x.bulk := by
    rintro rfl
    exact Nat.le_refl _
  unfold angle at h
  split_ifs at h
  · rcases toAngle_eq_ok h with ⟨t, n, ht⟩ | hr
    · have h1 := bulk_product_le (by simpa using ⟨Expr.settled_num _, settled_fullTurn n⟩) ht
      have h2 : (fullTurn n).bulk ≤ 1 := by
        unfold fullTurn
        split_ifs
        · exact Nat.le_refl 1
        · exact Nat.zero_le 1
      simp only [Expr.bulks_cons, Expr.bulks_nil, Expr.bulk_num] at h1
      omega
    · exact hstands hr
  · rcases ofAngle_eq_ok h with ⟨e, he, rfl | hr⟩ | hr
    · have h1 := bulk_tabulated_le he
      omega
    · have h1 := bulk_tabulated_le he
      have h2 := bulk_product_le (by simpa using ⟨Expr.settled_num _, settled_tabulated he⟩) hr
      simp only [Expr.bulks_cons, Expr.bulks_nil, Expr.bulk_num] at h2
      omega
    · exact hstands hr

end StackAlgebra.Canonical
