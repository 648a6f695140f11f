import StackAlgebra.Proofs.NormalForm.Multiple

/-!
# Exponents in products

A product gathers, for each base among its factors, the exponents that come with it (`exponentsOf`),
and raises the base to their canonical sum (`totalExponent`); a base that occurs once is no
exception (`mergePower_eq_power`). The coordinates of that sum add up over the factors
(`exponentAt`), so that exponents can be followed through products of products. A product has no
other data: it depends on its coefficient and on its factors up to their order (`product_congr`),
and where its result has different bases it comes to the product of its merged powers
(`product_merged`).
-/

namespace StackAlgebra.Expr

/-- The exponent of a factor. -/
def exponent (f : Expr) : Expr :=
  f.splitPower.2

/-- A number is not among those that are none. -/
@[simp] theorem nonNumbers_num_cons (q : Rat) (fs : List Expr) :
    nonNumbers (num q :: fs) = nonNumbers fs := rfl

/-- What is no number stays among those that are none. -/
theorem nonNumbers_cons {f : Expr} (hn : f.isNum = false) (fs : List Expr) :
    nonNumbers (f :: fs) = f :: nonNumbers fs :=
  List.filter_cons_of_pos (by simp [hn])

/-- What is taken from factors that are put together. -/
@[simp] theorem nonNumbers_append (fs gs : List Expr) :
    nonNumbers (fs ++ gs) = nonNumbers fs ++ nonNumbers gs :=
  List.filter_append fs gs

/-- From factors that are no numbers nothing is taken a second time. -/
@[simp] theorem nonNumbers_nonNumbers (fs : List Expr) :
    nonNumbers (nonNumbers fs) = nonNumbers fs :=
  nonNumbers_of_not_isNum fun _ => isNum_of_mem_nonNumbers

end StackAlgebra.Expr

namespace StackAlgebra.Canonical

open StackAlgebra.Expr (num nonNumbers isNum coefficientOf coordinates HaveDistinctBases
  HasDistinctBases IsMeasured)
open scoped List

variable {fs gs ms : List Expr} {b e f r : Expr} {c : Rat}

/-! ## Factors of stable expressions -/

/-- The opened factors of settled expressions are the factors of each of them. -/
theorem opened_perm_factors (h : ∀ f ∈ fs, f.IsSettled) : opened fs ~ fs.flatMap Expr.factors := by
  have hone : ∀ f ∈ fs, multiplicands f = f.factors := by
    intro f hf
    cases f with
    | product gs =>
      exact multiplicandsOf_of_not_isProduct (Expr.settled_product_iff.mp (h _ hf)).1.not_isProduct
    | _ => rfl
  rw [opened, multiplicandsOf_eq_flatMap, List.flatMap_congr hone]
  exact List.reverse_perm _

/-- The factors of two expressions. -/
theorem flatMap_factors_pair (a b : Expr) :
    [a, b].flatMap Expr.factors = a.factors ++ b.factors := by
  rw [List.flatMap_cons, List.flatMap_cons, List.flatMap_nil, List.append_nil]

/-- The opened factors of two settled expressions are the factors of both. -/
theorem opened_pair_perm {a b : Expr} (ha : a.IsSettled) (hb : b.IsSettled) :
    opened [a, b] ~ a.factors ++ b.factors := by
  rw [← flatMap_factors_pair]
  exact opened_perm_factors (List.forall_mem_cons.mpr ⟨ha, List.forall_mem_singleton.mpr hb⟩)

/-- The factors of a stable expression are stable. -/
theorem stable_factors (h : e.IsStable) : ∀ f ∈ e.factors, f.IsStable := by
  cases e with
  | product fs => exact fun f hf => h.child hf
  | _ => exact List.forall_mem_singleton.mpr h

/-- The factors of stable expressions are stable. -/
theorem stable_flatMap_factors (h : ∀ f ∈ fs, f.IsStable) :
    ∀ g ∈ fs.flatMap Expr.factors, g.IsStable := by
  intro g hg
  obtain ⟨f, hf, hg⟩ := List.mem_flatMap.mp hg
  exact stable_factors (h f hf) g hg

/-- Bases and exponents of stable factors are stable. -/
theorem stable_splitPower (h : f.IsStable) : f.base.IsStable ∧ f.exponent.IsStable := by
  cases f with
  | power b e =>
    exact ⟨h.child List.mem_cons_self, h.child (List.mem_cons_of_mem _ List.mem_cons_self)⟩
  | _ => exact ⟨h, Expr.isStable_num 1⟩

/-! ## Exponents of a base -/

/-- The exponents that come with the base `b` among the factors. -/
def exponentsOf (b : Expr) (fs : List Expr) : List Expr :=
  valuesOf b ((nonNumbers fs).map Expr.splitPower)

/-- The bases among the factors, each one once. -/
def basesOf (fs : List Expr) : List Expr :=
  (powersOf fs).map Prod.fst

/-- The exponent that a base has after its exponents among the factors are merged. -/
def totalExponent (b : Expr) (fs : List Expr) : Expr :=
  sum (exponentsOf b fs)

/-- The groups of factors are the bases with their exponents. -/
theorem powersOf_eq (fs : List Expr) :
    powersOf fs = (basesOf fs).map fun b => (b, exponentsOf b fs) := by
  rw [basesOf, List.map_map]
  refine (List.map_id _).symm.trans (List.map_congr_left fun g hg => ?_)
  exact Prod.ext rfl ((groups_group _).values g hg)

/-- The bases are those of the factors. -/
theorem mem_basesOf (h : AreFactors fs) : b ∈ basesOf fs ↔ ∃ f ∈ nonNumbers fs, f.base = b := by
  constructor
  · intro hb
    obtain ⟨g, hg, rfl⟩ := List.mem_map.mp hb
    obtain ⟨x, hx, hgx⟩ := label_mem_group hg
    obtain ⟨f, hf, rfl⟩ := List.mem_map.mp hx
    exact ⟨f, hf, hgx.symm⟩
  · rintro ⟨f, hf, rfl⟩
    obtain ⟨g, hg, hk⟩ := (groups_group ((nonNumbers fs).map Expr.splitPower)).covers f.splitPower
      (List.mem_map_of_mem hf)
    have hbase := (h f (Expr.mem_of_mem_nonNumbers hf)).1.splitPower.1
    rw [Expr.base, ← (settled_group h hg).1.eq_of_key_eq hbase hk]
    exact List.mem_map_of_mem hg

/-- No base is listed twice. -/
theorem nodup_basesOf (fs : List Expr) : (basesOf fs).Nodup := by
  rw [basesOf, List.Nodup, List.pairwise_map]
  exact (groups_group _).distinct.imp fun hne heq => hne (congrArg Expr.key heq)

/-- Expressions of which no two are the same are different. -/
theorem nodup_of_areDistinct (h : Expr.AreDistinct fs) : fs.Nodup := by
  refine h.imp fun hne heq => ?_
  rw [heq, Expr.same_self] at hne
  cases hne

/-- Bases of settled factors are settled. -/
theorem settled_of_mem_basesOf (h : AreFactors fs) (hb : b ∈ basesOf fs) : b.IsSettled := by
  obtain ⟨g, hg, rfl⟩ := List.mem_map.mp hb
  exact (settled_group h hg).1

/-- An exponent comes from a factor with that base. -/
theorem mem_exponentsOf : e ∈ exponentsOf b fs ↔
    ∃ f ∈ nonNumbers fs, f.base.same b = true ∧ f.exponent = e := by
  simp only [exponentsOf, valuesOf, List.mem_map, List.mem_filter]
  constructor
  · rintro ⟨_, ⟨⟨f, hf, rfl⟩, hs⟩, rfl⟩
    exact ⟨f, hf, hs, rfl⟩
  · rintro ⟨f, hf, hs, rfl⟩
    exact ⟨f.splitPower, ⟨⟨f, hf, rfl⟩, hs⟩, rfl⟩

/-- Exponents of settled factors are settled. -/
theorem settled_exponentsOf (h : AreFactors fs) : ∀ e ∈ exponentsOf b fs, e.IsSettled := by
  intro e he
  obtain ⟨f, hf, -, rfl⟩ := mem_exponentsOf.mp he
  exact (h f (Expr.mem_of_mem_nonNumbers hf)).1.splitPower.2

/-- Exponents of measured factors are measured. -/
theorem isMeasured_exponentsOf (h : ∀ f ∈ fs, f.IsMeasured) :
    ∀ e ∈ exponentsOf b fs, e.IsMeasured := by
  intro e he
  obtain ⟨f, hf, -, rfl⟩ := mem_exponentsOf.mp he
  exact (isMeasured_splitPower (h f (Expr.mem_of_mem_nonNumbers hf))).2

/-- Exponents of factors that are put together are put together. -/
theorem exponentsOf_append (b : Expr) (fs gs : List Expr) :
    exponentsOf b (fs ++ gs) = exponentsOf b fs ++ exponentsOf b gs := by
  simp [exponentsOf, valuesOf, nonNumbers]

/-- Factors in another order have the exponents in another order. -/
theorem exponentsOf_perm (h : nonNumbers fs ~ nonNumbers gs) :
    exponentsOf b fs ~ exponentsOf b gs :=
  ((h.map _).filter _).map _

/-! ## Coordinates of exponents -/

/-- The coordinates of the exponents that come with the base `b`, added up. -/
def exponentAt (b : Expr) (fs : List Expr) : Option Expr → Rat :=
  ((exponentsOf b fs).map coordinates).sum

/-- The merged exponent has the coordinates of the exponents added up. -/
theorem coordinates_totalExponent (h : AreFactors fs) (b : Expr) :
    (totalExponent b fs).coordinates = exponentAt b fs := by
  funext k
  rw [totalExponent, coordinates_sum (settled_exponentsOf h), exponentAt, Pi.list_sum_apply,
    List.map_map]
  rfl

/-- Exponents add up over factors that are put together. -/
theorem exponentAt_append (b : Expr) (fs gs : List Expr) :
    exponentAt b (fs ++ gs) = exponentAt b fs + exponentAt b gs := by
  rw [exponentAt, exponentsOf_append, List.map_append, List.sum_append]
  rfl

/-- Factors in another order have the same exponents. -/
theorem exponentAt_perm (h : nonNumbers fs ~ nonNumbers gs) : exponentAt b fs = exponentAt b gs :=
  ((exponentsOf_perm h).map _).sum_eq

/-- Numbers add nothing to the exponents. -/
theorem exponentAt_nonNumbers (b : Expr) (fs : List Expr) :
    exponentAt b (nonNumbers fs) = exponentAt b fs :=
  exponentAt_perm (.of_eq (Expr.nonNumbers_nonNumbers fs))

/-- The exponents of factors are those of what is left without the numbers, in any order. -/
theorem exponentAt_of_perm (h : nonNumbers fs ~ gs) : exponentAt b fs = exponentAt b gs :=
  (exponentAt_nonNumbers b fs).symm.trans (exponentAt_perm (h.filter _))

/-- Factors with other bases add nothing to the exponent. -/
theorem exponentAt_eq_zero (h : ∀ f ∈ nonNumbers fs, f.base.same b = false) :
    exponentAt b fs = 0 := by
  have hnil : exponentsOf b fs = [] := by
    refine List.eq_nil_iff_forall_not_mem.mpr fun e he => ?_
    obtain ⟨f, hf, hs, -⟩ := mem_exponentsOf.mp he
    rw [h f hf] at hs
    cases hs
  rw [exponentAt, hnil]
  rfl

/-- The exponent of a single factor. -/
theorem exponentAt_singleton (hn : f.isNum = false) :
    exponentAt b [f] = if f.base.same b then f.exponent.coordinates else 0 := by
  have hnon : nonNumbers [f] = [f] := Expr.nonNumbers_cons hn []
  rw [exponentAt, exponentsOf, hnon, valuesOf]
  by_cases hs : f.base.same b = true
  · have hs' : (f.splitPower.1).same b = true := hs
    simp [hs, hs', Expr.exponent]
  · have hs' : ¬(f.splitPower.1).same b = true := hs
    simp [hs, hs']

/-- A factor has its exponent at its base. -/
theorem exponentAt_base (hn : f.isNum = false) (hb : f.base = b) :
    exponentAt b [f] = f.exponent.coordinates := by
  rw [exponentAt_singleton hn, hb, Expr.same_self, if_pos rfl]

/-- Where the bases are different, the exponent of each is that of the one factor with it. -/
theorem exponentAt_of_mem (hd : HaveDistinctBases fs) (hf : f ∈ nonNumbers fs) :
    exponentAt f.base fs = f.exponent.coordinates := by
  have hnum := Expr.isNum_of_mem_nonNumbers hf
  rw [HaveDistinctBases, Expr.AreDistinct] at hd
  obtain ⟨l, k, hsplit⟩ := List.append_of_mem hf
  rw [hsplit, List.map_append, List.map_cons, List.pairwise_append, List.pairwise_cons] at hd
  obtain ⟨-, ⟨hk, -⟩, hl⟩ := hd
  have hl0 : exponentAt f.base l = 0 := by
    refine exponentAt_eq_zero fun g hg => ?_
    exact hl g.base (List.mem_map_of_mem (Expr.mem_of_mem_nonNumbers hg)) f.base List.mem_cons_self
  have hk0 : exponentAt f.base k = 0 := by
    refine exponentAt_eq_zero fun g hg => ?_
    have hne := hk g.base (List.mem_map_of_mem (Expr.mem_of_mem_nonNumbers hg))
    rw [Expr.same_eq_false_iff] at hne ⊢
    exact hne.symm
  rw [← exponentAt_nonNumbers, hsplit, ← List.singleton_append, exponentAt_append,
    exponentAt_append, exponentAt_base hnum rfl, hl0, hk0, zero_add, add_zero]

/-- The coordinates of numbers add up. -/
theorem coordinates_num_add (p q : Rat) :
    (num (p + q)).coordinates = (num p).coordinates + (num q).coordinates := by
  funext k
  rw [Pi.add_apply, coordinates_num, coordinates_num, coordinates_num]
  split_ifs <;> simp

/-- The coordinates of opposite numbers are opposite. -/
theorem coordinates_num_neg (q : Rat) : (num (-q)).coordinates = -(num q).coordinates := by
  funext k
  rw [Pi.neg_apply, coordinates_num, coordinates_num]
  split_ifs <;> simp

/-- Merged exponents are settled where nothing lacks a measure. -/
theorem settled_totalExponent (h : AreFactors fs) (hm : ∀ f ∈ fs, f.IsMeasured) (b : Expr) :
    (totalExponent b fs).IsSettled ∧ (totalExponent b fs).IsMeasured := by
  have hmeasured : (totalExponent b fs).IsMeasured :=
    ignoresCoefficients_isMeasured.canonicalSum (isMeasured_exponentsOf hm)
  exact ⟨settled_sum (settled_exponentsOf h) hmeasured.hasOrder, hmeasured⟩

/-- Merged exponents with the same coordinates are equal. -/
theorem totalExponent_eq (hf : AreFactors fs) (hfm : ∀ f ∈ fs, f.IsMeasured) (hg : AreFactors gs)
    (hgm : ∀ f ∈ gs, f.IsMeasured) (h : exponentAt b fs = exponentAt b gs) :
    totalExponent b fs = totalExponent b gs := by
  refine eq_of_coordinates_eq (settled_totalExponent hf hfm b).1
    (settled_totalExponent hg hgm b).1 ?_
  rw [coordinates_totalExponent hf, coordinates_totalExponent hg, h]

/-! ## Merged powers -/

/-- What is not zero comes to one with the exponent zero. -/
theorem power_num_zero (h : b ≠ num 0) : power b (num 0) = .ok (num 1) := by
  have hzero : b.isZero = false := by
    cases b with
    | num q => simpa [Expr.isZero] using h
    | _ => rfl
  exact Raised.eq_ok (.zero rfl hzero rfl)

/-- With the exponent one an expression stays as it is. -/
theorem power_num_one (b : Expr) : power b (num 1) = .ok b :=
  Raised.eq_ok (.one rfl rfl rfl)

/-- An integer power of a number. -/
theorem power_num_int {q : Rat} {k : ℤ} (h : q = 0 → 0 < k) :
    power (num q) (num k) = .ok (num (q ^ k)) := by
  by_cases hk0 : k = 0
  · have hq : q ≠ 0 := fun hq => (h hq).ne' hk0
    rw [hk0, zpow_zero, Int.cast_zero, power_num_zero (by simpa)]
  by_cases hk1 : k = 1
  · rw [hk1, zpow_one, Int.cast_one, power_num_one]
  · rw [power_eq, if_neg (by simpa [Expr.isZero]), if_neg (by simpa [Expr.isOne])]
    exact numberPower_int h

/-- The base of a settled factor is no power. -/
theorem not_isPower_base (h : f.IsSettled) : f.base.isPower = false := by
  cases f with
  | power b e => exact (Expr.settled_power_iff.mp h).1.not_isPower
  | _ => rfl

/-- A settled factor is the power of its base to its exponent. -/
theorem power_splitPower (h : f.IsSettled) : power f.base f.exponent = .ok f := by
  cases f with
  | power b e => exact power_fixed h
  | _ => exact power_num_one _

/-- Every base, also one that occurs once, is raised to its merged exponent. -/
theorem mergePower_eq_power (h : AreFactors fs) (hm : ∀ f ∈ fs, f.IsMeasured)
    (hb : b ∈ basesOf fs) :
    mergePower (b, exponentsOf b fs) = power b (totalExponent b fs) := by
  have hg : (b, exponentsOf b fs) ∈ powersOf fs := by
    rw [powersOf_eq]
    exact List.mem_map_of_mem hb
  have hpos : 1 ≤ (exponentsOf b fs).length := length_mem_group _ hg
  rcases Nat.lt_or_ge (exponentsOf b fs).length 2 with hlt | hge
  · obtain ⟨e, he⟩ : ∃ e, exponentsOf b fs = [e] := List.length_eq_one_iff.mp (by omega)
    rw [totalExponent, he]
    rw [he] at hg
    obtain ⟨f, hf, heq⟩ := exists_factor h hg (List.mem_singleton.mpr rfl)
    have hs := (h f (Expr.mem_of_mem_nonNumbers hf)).1
    have hpow := power_splitPower hs
    have hbare := hs.bare_splitPower
    rw [Expr.base, Expr.exponent, heq] at hpow
    rw [heq] at hbare
    have hes : e.IsSettled := by
      have := hs.splitPower.2
      rwa [heq] at this
    rw [sum_singleton hes, hpow]
    exact congrArg Except.ok hbare
  · have ho := (settled_totalExponent h hm b).2.hasOrder
    rw [mergePower_of_two_le hge]
    exact congrArg (· >>= power b) (inOrder_eq_ok_iff.mpr ⟨rfl, ho⟩)

/-- The merged powers of a product are those of its bases to their merged exponents. -/
theorem forall₂_mergePower_iff (h : AreFactors fs) (hm : ∀ f ∈ fs, f.IsMeasured) :
    List.Forall₂ (fun g m => mergePower g = .ok m) (powersOf fs) ms ↔
      List.Forall₂ (fun b m => power b (totalExponent b fs) = .ok m) (basesOf fs) ms := by
  rw [powersOf_eq, List.forall₂_map_left_iff]
  constructor
  · exact fun hms => forall₂_imp_of_mem hms fun b hb m hbm => mergePower_eq_power h hm hb ▸ hbm
  · exact fun hms => forall₂_imp_of_mem hms fun b hb m hbm =>
      (mergePower_eq_power h hm hb).trans hbm

/-! ## Products -/

/-- Groups do not depend on the numbers among the factors. -/
theorem powersOf_nonNumbers (fs : List Expr) : powersOf (nonNumbers fs) = powersOf fs := by
  rw [powersOf, powersOf, Expr.nonNumbers_nonNumbers]

/-- A product depends on its coefficient and on its other factors, whatever their order. -/
theorem product_congr (hfs : ∀ f ∈ fs, f.IsSettled)
    (hc : coefficientOf (opened gs) = coefficientOf (opened fs))
    (hp : nonNumbers (opened fs) ~ nonNumbers (opened gs)) (h : product fs = .ok r) :
    product gs = .ok r := by
  rcases merged_of_product_eq_ok h with ⟨h0, rfl⟩ | ⟨h0, ms, hms, hr⟩
  · rw [product_eq, if_pos (hc.trans h0)]
  have hos := areFactors_opened hfs
  have hnon : AreFactors (nonNumbers (opened fs)) := fun f hf =>
    hos f (Expr.mem_of_mem_nonNumbers hf)
  rw [← powersOf_nonNumbers] at hms
  obtain ⟨hmerged, ns, hns, hnm⟩ := exists_perm_merged hnon hp hms
  rw [powersOf_nonNumbers] at hns hms
  rw [powersOf_nonNumbers, powersOf_nonNumbers] at hmerged
  rw [product_eq_multiply (hc.trans_ne h0) hns, hc]
  have hsettled : ∀ m ∈ nonNumbers ms, m.IsSettled := fun m hm =>
    settled_merged hos hms m (Expr.mem_of_mem_nonNumbers hm)
  refine Multiplied.eq_ok ((multiply_eq_ok hr).perm hmerged hnm hsettled fun _ q hq => ?_)
  exact product_perm (Expr.settled_append_num hsettled q) ((hnm.filter _).symm.append_right _) hq

/-- Coefficients of factors that are put together multiply. -/
theorem coefficientOf_append (fs gs : List Expr) :
    coefficientOf (fs ++ gs) = coefficientOf fs * coefficientOf gs := by
  induction fs with
  | nil => exact (one_mul _).symm
  | cons f fs ih => cases f <;> simp [coefficientOf, ih, mul_assoc]

/-- Expressions that are no numbers leave the coefficient. -/
theorem coefficientOf_cons (hn : f.isNum = false) (fs : List Expr) :
    coefficientOf (f :: fs) = coefficientOf fs := by
  cases f with
  | num q => cases hn
  | _ => rfl

/-- The factors of expressions have the coefficient of the numbers among these and of the others. -/
theorem coefficientOf_flatMap_factors (ms : List Expr) : coefficientOf (ms.flatMap Expr.factors) =
    coefficientOf ms * coefficientOf ((nonNumbers ms).flatMap Expr.factors) := by
  induction ms with
  | nil => exact (one_mul _).symm
  | cons m ms ih =>
    rw [List.flatMap_cons, coefficientOf_append, ih]
    cases hn : m.isNum with
    | true =>
      obtain ⟨q, rfl⟩ := Expr.exists_eq_num hn
      have hq : coefficientOf (num q).factors = q := mul_one q
      rw [Expr.nonNumbers_num_cons, hq, coefficientOf, mul_assoc]
    | false =>
      rw [Expr.nonNumbers_cons hn, List.flatMap_cons, coefficientOf_append, coefficientOf_cons hn]
      ring

/-- The factors of expressions that are no numbers are those of the expressions that are none. -/
theorem nonNumbers_flatMap_factors (ms : List Expr) :
    nonNumbers (ms.flatMap Expr.factors) = nonNumbers ((nonNumbers ms).flatMap Expr.factors) := by
  induction ms with
  | nil => rfl
  | cons m ms ih =>
    rw [List.flatMap_cons, Expr.nonNumbers_append, ih]
    cases hn : m.isNum with
    | true =>
      obtain ⟨q, rfl⟩ := Expr.exists_eq_num hn
      rfl
    | false => rw [Expr.nonNumbers_cons hn, List.flatMap_cons, Expr.nonNumbers_append]

/-- Expressions with the same coefficient and the same other factors multiply to the same. -/
theorem product_congr_factors (hfs : ∀ f ∈ fs, f.IsSettled) (hgs : ∀ f ∈ gs, f.IsSettled)
    (hc : coefficientOf (gs.flatMap Expr.factors) = coefficientOf (fs.flatMap Expr.factors))
    (hp : nonNumbers (fs.flatMap Expr.factors) ~ nonNumbers (gs.flatMap Expr.factors))
    (h : product fs = .ok r) : product gs = .ok r := by
  have hf := opened_perm_factors hfs
  have hg := opened_perm_factors hgs
  refine product_congr hfs ?_ ?_ h
  · rw [Expr.coefficientOf_perm hf, Expr.coefficientOf_perm hg, hc]
  · exact (hf.filter _).trans (hp.trans (hg.filter _).symm)

/-- Factors that are put together are the factors of what they make. -/
theorem factors_collapse (hp : ∀ f ∈ fs, f.isProduct = false) (hne : fs ≠ []) :
    (collapse fs).factors ~ fs := by
  match fs, hne with
  | [f], _ => exact .of_eq (Expr.factors_of_not_isProduct (hp f (by simp)))
  | f :: g :: fs, _ => exact Expr.perm_sort _

/-- A rational and the factors that it is put together with are those of what they make. -/
theorem factors_productOf (hn : ∀ f ∈ fs, f.isNum = false) (hp : ∀ f ∈ fs, f.isProduct = false)
    (h0 : c ≠ 0) : coefficientOf (productOf c fs).factors = c ∧
      nonNumbers (productOf c fs).factors ~ fs := by
  have hself := Expr.nonNumbers_of_not_isNum hn
  have hone := Expr.coefficientOf_of_not_isNum hn
  rw [productOf, if_neg h0]
  split_ifs with h1
  · rcases eq_or_ne fs [] with rfl | hne
    · exact ⟨(mul_one 1).trans h1.symm, .refl _⟩
    · have hfactors := factors_collapse hp hne
      exact ⟨by rw [Expr.coefficientOf_perm hfactors, hone, h1],
        (hfactors.filter _).trans (.of_eq hself)⟩
  · have hfactors : (collapse (fs ++ [num c])).factors ~ fs ++ [num c] := by
      refine factors_collapse (List.forall_mem_append.mpr ⟨hp, ?_⟩) (by simp)
      exact List.forall_mem_singleton.mpr rfl
    refine ⟨?_, (hfactors.filter _).trans (.of_eq ?_)⟩
    · rw [Expr.coefficientOf_perm hfactors, coefficientOf_append, hone, one_mul]
      exact mul_one c
    · show nonNumbers (fs ++ [num c]) = fs
      rw [Expr.nonNumbers_append, hself]
      exact List.append_nil fs

/-- Stable factors with different bases are put together to a stable expression, unless a rational
is to be distributed. -/
theorem stable_productOf (hn : ∀ f ∈ fs, f.isNum = false) (hp : ∀ f ∈ fs, f.isProduct = false)
    (hs : ∀ f ∈ fs, f.IsStable) (hd : HaveDistinctBases fs) (hspread : spread? c fs = none) :
    (productOf c fs).IsStable := by
  have hm := isMeasured_productOf (fun f hf => (hs f hf).measured) c
  refine ⟨settled_productOf (fun f hf => ⟨(hs f hf).settled, hp f hf⟩) hn hspread hm.hasOrder, ?_,
    hm⟩
  by_cases h0 : c = 0
  · rw [productOf, if_pos h0]
    exact (Expr.isStable_num 0).distinct
  have key : ∀ l : List Expr, (∀ f ∈ l, f.IsStable) → nonNumbers l ~ fs →
      (collapse l).HasDistinctBases := by
    intro l hl hnon
    rcases l with _ | ⟨f, _ | ⟨g, l⟩⟩
    · exact (Expr.isStable_num 1).distinct
    · exact (hl f (by simp)).distinct
    · have hp := Expr.perm_sort (f :: g :: l)
      refine .intro ?_ fun f hf => (hl f (hp.mem_iff.mp hf)).distinct
      refine hd.perm (.map _ ?_)
      rw [Expr.nonNumbers_of_not_isNum hn]
      exact hnon.symm.trans (hp.filter _).symm
  have hself := Expr.nonNumbers_of_not_isNum hn
  rw [productOf, if_neg h0]
  split_ifs
  · exact key fs hs (.of_eq hself)
  · refine key (fs ++ [num c]) ?_ (.of_eq ?_)
    · exact List.forall_mem_append.mpr ⟨hs, List.forall_mem_singleton.mpr (Expr.isStable_num c)⟩
    · rw [Expr.nonNumbers_append, hself]
      exact List.append_nil fs

/-- Zero times anything is zero. -/
theorem distribute_zero (fs : List Expr) : distribute 0 fs = .ok (num 0) := by
  have hspread : spread? 0 fs = none := by
    cases hs : spread? 0 fs with
    | none => rfl
    | some ts => exact absurd rfl (spread?_eq_some_iff.mp hs).2.1
  rw [distribute, hspread]
  rfl

/-- Factors that are put together have different bases if what they come to has. -/
theorem haveDistinctBases_of_distribute (hn : ∀ f ∈ fs, f.isNum = false) (h0 : c ≠ 0)
    (h : distribute c fs = .ok r) (hd : r.HasDistinctBases) : HaveDistinctBases fs := by
  have hself : nonNumbers fs = fs := Expr.nonNumbers_of_not_isNum hn
  -- One factor alone has no other base beside its own.
  rcases Nat.lt_or_ge fs.length 2 with hlt | hge
  · unfold HaveDistinctBases Expr.AreDistinct
    rw [hself]
    match fs, hlt with
    | [], _ => exact .nil
    | [f], _ => exact List.pairwise_singleton _ _
  · have hspread : spread? c fs = none := by
      refine spread?_eq_none fun ts hsum => ?_
      rw [hsum] at hge
      simp at hge
    rw [distribute, hspread] at h
    obtain ⟨rfl, -⟩ := inOrder_eq_ok_iff.mp h
    have key : ∀ l : List Expr, 2 ≤ l.length → nonNumbers l = fs →
        (collapse l).HasDistinctBases → HaveDistinctBases fs := by
      intro l hl hnon hl'
      rw [collapse_of_two_le hl] at hl'
      have hdistinct : HaveDistinctBases (Expr.sort l) := hl'.here
      have hp : nonNumbers (Expr.sort l) ~ nonNumbers fs := by
        rw [hself, ← hnon]
        exact (Expr.perm_sort l).filter _
      exact hdistinct.perm (hp.map _)
    rw [productOf, if_neg h0] at hd
    split_ifs at hd with h1
    · exact key fs hge hself hd
    · refine key (fs ++ [num c]) (by simp; omega) ?_ hd
      rw [Expr.nonNumbers_append, hself]
      exact List.append_nil fs

/-- Where a merged power is expanded the merged powers are multiplied once more. -/
theorem multiply_of_expanded {bs : List (Expr × List Expr)} {q : Rat} (hms : ∀ m ∈ ms, m.IsSettled)
    (h : Expanded bs ms) : multiply q bs ms = .ok r ↔ product (num q :: ms) = .ok r := by
  have hnon : ∀ m ∈ nonNumbers ms, m.IsSettled := fun m hm => hms m (Expr.mem_of_mem_nonNumbers hm)
  have hlast : ∀ m ∈ nonNumbers ms ++ [num (q * coefficientOf ms)], m.IsSettled :=
    Expr.settled_append_num hnon _
  have hcons : ∀ m ∈ num q :: ms, m.IsSettled := List.forall_mem_cons.mpr ⟨Expr.settled_num q, hms⟩
  have hcoef : coefficientOf
      ((nonNumbers ms ++ [num (q * coefficientOf ms)]).flatMap Expr.factors) =
        coefficientOf ((num q :: ms).flatMap Expr.factors) := by
    have hnum : coefficientOf ([num (q * coefficientOf ms)].flatMap Expr.factors) =
      q * coefficientOf ms := mul_one _
    rw [List.flatMap_append, coefficientOf_append, hnum]
    show _ = q * coefficientOf (ms.flatMap Expr.factors)
    rw [coefficientOf_flatMap_factors ms]
    ring
  have hrest : nonNumbers ((nonNumbers ms ++ [num (q * coefficientOf ms)]).flatMap Expr.factors) =
      nonNumbers ((num q :: ms).flatMap Expr.factors) := by
    have hnil : nonNumbers ([num (q * coefficientOf ms)].flatMap Expr.factors) = [] := rfl
    rw [List.flatMap_append, Expr.nonNumbers_append, hnil, List.append_nil]
    exact (nonNumbers_flatMap_factors ms).symm
  rw [multiply, if_pos (show hasMerged bs = true ∧ _ from h)]
  exact ⟨product_congr_factors hlast hcons hcoef.symm (.of_eq hrest),
    product_congr_factors hcons hlast hcoef (.of_eq hrest.symm)⟩

/-- Where no merged power is expanded they are put together as they are. -/
theorem multiply_of_not_expanded {bs : List (Expr × List Expr)} {q : Rat} (h : ¬Expanded bs ms)
    (hprod : ∀ m ∈ nonNumbers ms, m.isProduct = false) : multiply q bs ms =
      distribute (q * coefficientOf (ms.flatMap Expr.factors))
        (nonNumbers (ms.flatMap Expr.factors)) := by
  have hself : (nonNumbers ms).flatMap Expr.factors = nonNumbers ms := Expr.flatMap_factors hprod
  rw [multiply, if_neg (show ¬(hasMerged bs = true ∧ _) from h), coefficientOf_flatMap_factors,
    nonNumbers_flatMap_factors, hself,
    Expr.coefficientOf_of_not_isNum fun m => Expr.isNum_of_mem_nonNumbers, mul_one,
    Expr.nonNumbers_nonNumbers]

/-- A product whose result has different bases comes to the product of its merged powers. -/
theorem product_merged (hfs : ∀ f ∈ fs, f.IsSettled) (h0 : coefficientOf (opened fs) ≠ 0)
    (hms : List.Forall₂ (fun g m => mergePower g = .ok m) (powersOf (opened fs)) ms)
    (h : product fs = .ok r) (hd : r.HasDistinctBases) :
    product (num (coefficientOf (opened fs)) :: ms) = .ok r := by
  have hos := areFactors_opened hfs
  have hsettled := settled_merged hos hms
  have hnon : ∀ m ∈ nonNumbers ms, m.IsSettled := fun m hm =>
    hsettled m (Expr.mem_of_mem_nonNumbers hm)
  have hcons : ∀ m ∈ num (coefficientOf (opened fs)) :: ms, m.IsSettled :=
    List.forall_mem_cons.mpr ⟨Expr.settled_num _, hsettled⟩
  have hfactors : (num (coefficientOf (opened fs)) :: ms).flatMap Expr.factors =
      num (coefficientOf (opened fs)) :: ms.flatMap Expr.factors := rfl
  rw [product_eq_multiply h0 hms] at h
  by_cases hexp : Expanded (powersOf (opened fs)) ms
  · exact (multiply_of_expanded hsettled hexp).mp h
  · -- The merged powers stay what they are.
    have hprod := not_isProduct_of_not_expanded hos hms hexp
    have hself : (nonNumbers ms).flatMap Expr.factors = nonNumbers ms := Expr.flatMap_factors hprod
    have hnum : ∀ m ∈ nonNumbers ms, m.isNum = false := fun m => Expr.isNum_of_mem_nonNumbers
    have hopen := opened_perm_factors hcons
    rw [multiply, if_neg (show ¬(hasMerged (powersOf (opened fs)) = true ∧ _) from hexp)] at h
    rw [hfactors] at hopen
    have hcoef : coefficientOf (opened (num (coefficientOf (opened fs)) :: ms)) =
        coefficientOf (opened fs) * coefficientOf ms := by
      rw [Expr.coefficientOf_perm hopen, coefficientOf, coefficientOf_flatMap_factors, hself,
        Expr.coefficientOf_of_not_isNum hnum, mul_one]
    have hperm : nonNumbers (opened (num (coefficientOf (opened fs)) :: ms)) ~ nonNumbers ms := by
      refine (hopen.filter _).trans (.of_eq ?_)
      show nonNumbers (num _ :: ms.flatMap Expr.factors) = _
      rw [Expr.nonNumbers_num_cons, nonNumbers_flatMap_factors, hself, Expr.nonNumbers_nonNumbers]
    by_cases hzero : coefficientOf (opened fs) * coefficientOf ms = 0
    · rw [hzero, distribute_zero] at h
      rw [product_eq, if_pos (hcoef.trans hzero), h]
    · have hdistinct := haveDistinctBases_of_distribute hnum hzero h hd
      have hd' : HaveDistinctBases (opened (num (coefficientOf (opened fs)) :: ms)) := by
        refine hdistinct.perm ?_
        rw [Expr.nonNumbers_nonNumbers]
        exact hperm.symm.map _
      rw [product_of_distinct hcons (hcoef.trans_ne hzero) hd', hcoef, distribute_perm _ hperm, h]
      exact fun m hm => hnon m (hperm.mem_iff.mp hm)

end StackAlgebra.Canonical
