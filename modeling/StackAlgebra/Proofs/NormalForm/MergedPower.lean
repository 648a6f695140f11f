import StackAlgebra.Proofs.NormalForm.Inverse
import Mathlib.Data.List.Count

/-!
# What a base comes to in a product

A product raises each of its bases to the merged exponent. What the base comes to (`mergedPower`) is
a rational (`rationalPart`) times what is left of the power (`leftover`); over the bases of a list
of factors, or any more, these make up the product (`contents_merged`). A base mostly stays with its
exponent (`comes_of_power`), but rational powers of numbers may leave a root with a smaller exponent
or nothing at all. Whole powers then only go to the rational (`rationalPower_shift`). Where at most
one factor is left of each base the exponents of the bases can be read off what is left
(`exponentAt_flatMap`).
-/

namespace StackAlgebra.Canonical

open StackAlgebra.Expr (num nonNumbers isNum coefficientOf coordinates HaveDistinctBases)
open scoped List

variable {b e f m r β : Expr} {fs gs ms B : List Expr} {q v x y : Rat} {k : ℤ}

/-! ## Merged powers -/

/-- What the base comes to in the product of the factors, and one where the power is an error. -/
def mergedPower (fs : List Expr) (b : Expr) : Expr :=
  match power b (totalExponent b fs) with
  | .ok m => m
  | .error _ => num 1

/-- The rational that the base brings to the product. -/
def rationalPart (fs : List Expr) (b : Expr) : Rat :=
  coefficientOf (mergedPower fs b).factors

/-- What is left of the base in the product. -/
def leftover (fs : List Expr) (b : Expr) : List Expr :=
  nonNumbers (mergedPower fs b).factors

/-- The merged power is the result of the power, if there is one. -/
theorem mergedPower_eq (h : power b (totalExponent b fs) = .ok m) : mergedPower fs b = m := by
  rw [mergedPower, h]

/-- A base that is not among the factors has the exponent zero. -/
theorem totalExponent_of_not_mem (h : AreFactors fs) (hb : b.IsSettled) (hn : b ∉ basesOf fs) :
    totalExponent b fs = num 0 := by
  have hnil : exponentsOf b fs = [] := by
    refine List.eq_nil_iff_forall_not_mem.mpr fun e he => hn ?_
    obtain ⟨f, hf, hs, -⟩ := mem_exponentsOf.mp he
    have hbase := (h f (Expr.mem_of_mem_nonNumbers hf)).1.splitPower.1
    exact (mem_basesOf h).mpr ⟨f, hf, (hbase.same_iff_eq hb).mp hs⟩
  rw [totalExponent, hnil]
  with_unfolding_all rfl

/-- A base with the exponent zero comes to one. -/
theorem mergedPower_of_zero (h : totalExponent b fs = num 0) : mergedPower fs b = num 1 := by
  rw [mergedPower, h, power_eq, if_pos (by decide)]
  by_cases hz : b.isZero = true
  · rw [if_pos hz]
  · rw [if_neg hz]

/-- The coefficient of the factors of all of them. -/
theorem coefficientOf_flatMap (ms : List Expr) : coefficientOf (ms.flatMap Expr.factors) =
    (ms.map fun m => coefficientOf m.factors).prod := by
  induction ms with
  | nil => rfl
  | cons m ms ih => rw [List.flatMap_cons, coefficientOf_append, ih, List.map_cons, List.prod_cons]

/-- What is no number among the factors of all of them. -/
theorem nonNumbers_flatMap (ms : List Expr) : nonNumbers (ms.flatMap Expr.factors) =
    ms.flatMap fun m => nonNumbers m.factors := by
  induction ms with
  | nil => rfl
  | cons m ms ih => rw [List.flatMap_cons, Expr.nonNumbers_append, ih, List.flatMap_cons]

/-- Powers that are no errors are merged powers. -/
theorem merged_eq_map (hms : List.Forall₂ (fun b m => power b (totalExponent b fs) = .ok m) B ms) :
    ms = B.map (mergedPower fs) := by
  induction hms with
  | nil => rfl
  | cons hm _ ih => rw [List.map_cons, mergedPower_eq hm, ← ih]

/-- Bases are raised to merged powers exactly if none of the powers is an error. -/
theorem forall₂_mergedPower_iff :
    List.Forall₂ (fun b m => power b (totalExponent b fs) = .ok m) B (B.map (mergedPower fs)) ↔
      ∀ b ∈ B, power b (totalExponent b fs) = .ok (mergedPower fs b) := by
  rw [List.forall₂_map_right_iff, List.forall₂_same]

/-- Settled bases, among them those of the factors, each one once. -/
structure Covers (B fs : List Expr) : Prop where
  nodup : B.Nodup
  settled : ∀ b ∈ B, b.IsSettled
  bases : ∀ b ∈ basesOf fs, b ∈ B

/-- The bases of factors are enough for them. -/
theorem Covers.self (h : AreFactors fs) : Covers (basesOf fs) fs :=
  ⟨nodup_basesOf fs, fun _ hb => settled_of_mem_basesOf h hb, fun _ => id⟩

/-- The merged powers of a product are made up of the rationals and the leftovers of bases, where
bases that are not among the factors add nothing. -/
theorem contents_merged (h : AreFactors fs) (hB : Covers B fs)
    (hms : List.Forall₂ (fun b m => power b (totalExponent b fs) = .ok m) (basesOf fs) ms) :
    coefficientOf (ms.flatMap Expr.factors) = (B.map (rationalPart fs)).prod ∧
      nonNumbers (ms.flatMap Expr.factors) ~ B.flatMap (leftover fs) := by
  -- The bases of `B` beyond those of the factors come to one, which is neither a rational nor a
  -- factor more.
  obtain ⟨l, hl, hsub⟩ := (nodup_basesOf fs).subperm hB.bases
  obtain ⟨rest, hrestperm⟩ := hsub.exists_perm_append
  have hperm : B ~ basesOf fs ++ rest := hrestperm.trans (hl.append_right rest)
  have hnodup := List.nodup_append.mp (hperm.nodup_iff.mp hB.nodup)
  have hrest : ∀ b ∈ rest, mergedPower fs b = num 1 := by
    intro b hb
    refine mergedPower_of_zero
      (totalExponent_of_not_mem h ?_ fun hmem => hnodup.2.2 b hmem b hb rfl)
    exact hB.settled b (hperm.mem_iff.mpr (List.mem_append_right _ hb))
  have hone : (rest.map (rationalPart fs)).prod = 1 := by
    refine List.prod_eq_one fun c hc => ?_
    obtain ⟨b, hb, rfl⟩ := List.mem_map.mp hc
    rw [rationalPart, hrest b hb]
    exact mul_one 1
  have hnil : rest.flatMap (leftover fs) = [] := by
    refine List.flatMap_eq_nil_iff.mpr fun b hb => ?_
    rw [leftover, hrest b hb]
    rfl
  constructor
  · rw [(hperm.map _).prod_eq, List.map_append, List.prod_append, hone, mul_one, merged_eq_map hms,
      coefficientOf_flatMap, List.map_map]
    rfl
  · refine List.Perm.trans ?_ (hperm.flatMap_right _).symm
    rw [List.flatMap_append, hnil, List.append_nil, nonNumbers_flatMap, merged_eq_map hms,
      List.flatMap_map]
    exact .refl _

/-! ## Rational powers -/

/-- The numerator of a rational to which an integer is added. -/
theorem num_add_int (x : Rat) (k : ℤ) : (x + k).num = x.num + k * x.den := by
  have h := Rat.mul_den_eq_num (x + k)
  rw [Rat.add_intCast_den, add_mul, Rat.mul_den_eq_num] at h
  exact_mod_cast h.symm

/-- A rational power is a power of a number with that root, for all exponents of the denominator, or
what is left is a root that stays. -/
theorem rationalPower_eq_ok_cases (h0 : q ≠ 0) (h : rationalPower q x = .ok m) :
    (∃ s : Rat, s ^ x.den = q ∧ ∀ y : Rat, y.den = x.den →
      rationalPower q y = .ok (num (s ^ y.num))) ∨
      (Expr.power (num q) (num (x - x.floor))).IsSettled := by
  by_cases hint : x.den = 1
  · refine .inl ⟨q, by rw [hint, pow_one], fun y hy => ?_⟩
    rw [rationalPower, if_pos (hy.trans hint)]
  by_cases hreal : q < 0 ∧ x.den % 2 = 0
  · rw [rationalPower, if_neg hint, if_pos hreal] at h
    cases h
  cases hroot : Root.rational? x.den q.abs with
  | some root =>
    refine .inl ⟨if 0 < q then root else -root, ?_, fun y hy => ?_⟩
    · rw [rat_abs_eq] at hroot
      have hpow := (Root.rational?_eq_some (abs_nonneg q) hroot).2
      rcases lt_or_gt_of_ne h0 with hneg | hpos
      · have hodd : Odd x.den := odd_of_isReal hreal hneg
        rw [if_neg hneg.not_gt, hodd.neg_pow, hpow, abs_of_neg hneg, neg_neg]
      · rw [if_pos hpos, hpow, abs_of_pos hpos]
    · rw [rationalPower, hy, if_neg hint, if_neg hreal, hroot]
  | none =>
    -- Without a root what is left stays, with the exponent's part below one.
    obtain ⟨hpos, hlt, hden⟩ := part_spec hint
    rw [rat_abs_eq, Root.rational?_eq_none_iff x.den_ne_zero (abs_nonneg q)] at hroot
    refine .inr (settled_root (hden.trans_ne hint) hpos hlt ?_ (hden ▸ hroot))
    rcases lt_or_gt_of_ne h0 with hneg | hpos
    · have := not_and.mp hreal hneg
      exact .inr (by omega)
    · exact .inl hpos

/-- The rational and the root that a rational power consists of. -/
theorem rationalPower_of_root (h : (Expr.power (num q) (num (x - x.floor))).IsSettled) :
    rationalPower q x = .ok (term (q ^ x.floor) (.power (num q) (num (x - x.floor)))) := by
  have hx := rationalPower_add_int h x.floor
  rwa [sub_add_cancel] at hx

/-- A whole power more only multiplies the rational of a rational power. -/
theorem rationalPower_shift (h0 : q ≠ 0) (h : rationalPower q x = .ok m) (k : ℤ) :
    ∃ n, rationalPower q (x + k) = .ok n ∧
    coefficientOf n.factors = q ^ k * coefficientOf m.factors ∧
      nonNumbers n.factors = nonNumbers m.factors := by
  rcases rationalPower_eq_ok_cases h0 h with ⟨s, hs, hpow⟩ | hroot
  · rw [hpow x rfl] at h
    have hs0 : s ≠ 0 := by
      rintro rfl
      exact h0 (hs.symm.trans (zero_pow x.den_ne_zero))
    refine ⟨_, hpow (x + k) (Rat.add_intCast_den x k), ?_, ?_⟩
    · have hvalue : s ^ (x + k).num = q ^ k * s ^ x.num := by
        rw [num_add_int, zpow_add₀ hs0, mul_comm k, zpow_mul, zpow_natCast, hs, mul_comm]
      rw [← Except.ok.inj h, hvalue]
      exact mul_assoc _ _ 1
    · rw [← Except.ok.inj h]
      rfl
  · have hmonic := Expr.isMonic_of_not_isProduct hroot rfl rfl rfl
    rw [rationalPower_of_root hroot] at h
    -- The root has the part of the exponent below one, to which whole powers add nothing.
    have hsplit : x + k = x - x.floor + (x.floor + k : ℤ) := by
      push_cast
      ring
    refine ⟨_, by rw [hsplit, rationalPower_add_int hroot], ?_⟩
    rw [← Except.ok.inj h, (factors_term hmonic _).1, (factors_term hmonic _).1,
      (factors_term hmonic _).2, (factors_term hmonic _).2, zpow_add₀ (base_ne_of_root hroot).1,
      mul_comm]
    exact ⟨rfl, rfl⟩

/-! ## Exponents of stable factors -/

/-- Stable expressions that are no products. -/
def AreStable (fs : List Expr) : Prop :=
  ∀ f ∈ fs, f.IsStable ∧ f.isProduct = false

namespace AreStable

/-- The factors of a stable expression are stable. -/
theorem factors {a : Expr} (h : a.IsStable) : AreStable a.factors := fun f hf =>
  ⟨stable_factors h f hf, h.settled.not_isProduct_factors f hf⟩

/-- The factors of stable expressions are stable. -/
theorem flatMap (h : ∀ f ∈ fs, f.IsStable) : AreStable (fs.flatMap Expr.factors) := fun g hg => by
  obtain ⟨f, hf, hg⟩ := List.mem_flatMap.mp hg
  exact factors (h f hf) g hg

/-- Stable factors that are put together. -/
theorem append (hf : AreStable fs) (hg : AreStable gs) : AreStable (fs ++ gs) :=
  List.forall_mem_append.mpr ⟨hf, hg⟩

/-- Stable factors in another order. -/
theorem perm (h : AreStable fs) (hp : fs ~ gs) : AreStable gs := fun f hf => h f (hp.mem_iff.mpr hf)

/-- Stable factors are settled. -/
theorem areFactors (h : AreStable fs) : AreFactors fs :=
  fun f hf => ⟨(h f hf).1.settled, (h f hf).2⟩

/-- Stable factors are measured. -/
theorem isMeasured (h : AreStable fs) : ∀ f ∈ fs, f.IsMeasured := fun f hf => (h f hf).1.measured

/-- Exponents of stable factors are stable. -/
theorem totalExponent (h : AreStable fs) (b : Expr) : (totalExponent b fs).IsStable := by
  have hes : ∀ e ∈ exponentsOf b fs, e.IsStable := by
    intro e he
    obtain ⟨f, hf, -, rfl⟩ := mem_exponentsOf.mp he
    exact (stable_splitPower (h f (Expr.mem_of_mem_nonNumbers hf)).1).2
  obtain ⟨r, hr, hrs, -⟩ := hasCoordinates_sum hes
  obtain ⟨rfl, -⟩ := inOrder_eq_ok_iff.mp hr
  exact hrs

/-- Stable factors give a base the same exponent if they give it the same coordinates. -/
theorem totalExponent_eq (hf : AreStable fs) (hg : AreStable gs)
    (h : exponentAt b fs = exponentAt b gs) :
    Canonical.totalExponent b fs = Canonical.totalExponent b gs :=
  Canonical.totalExponent_eq hf.areFactors hf.isMeasured hg.areFactors hg.isMeasured h

/-- The exponent of a base is the expression with its coordinates. -/
theorem totalExponent_eq_iff (hf : AreStable fs) (he : e.IsSettled) :
    Canonical.totalExponent b fs = e ↔ exponentAt b fs = e.coordinates := by
  rw [← coordinates_totalExponent hf.areFactors]
  exact ⟨fun h => congrArg coordinates h, eq_of_coordinates_eq (hf.totalExponent b).settled he⟩

/-- Numbers as exponents add up. -/
theorem totalExponent_append (hf : AreStable fs) (hg : AreStable gs)
    (hx : exponentAt b fs = (num x).coordinates) (hy : exponentAt b gs = (num y).coordinates) :
    Canonical.totalExponent b (fs ++ gs) = num (x + y) := by
  refine ((hf.append hg).totalExponent_eq_iff (Expr.settled_num _)).mpr ?_
  rw [exponentAt_append, hx, hy, coordinates_num_add]

/-- The bases of stable factors are bases. -/
theorem isBase (h : AreStable fs) (hb : b ∈ basesOf fs) :
    b.IsStable ∧ b.isPower = false ∧ b.isOne = false := by
  obtain ⟨f, hf, rfl⟩ := (mem_basesOf h.areFactors).mp hb
  have hmem := Expr.mem_of_mem_nonNumbers hf
  have hbase := IsFactor.isBase ⟨(h f hmem).1, Expr.isNum_of_mem_nonNumbers hf, (h f hmem).2⟩
  exact ⟨hbase.stable, hbase.not_isPower, hbase.not_isOne⟩

end AreStable

/-! ## What a base comes to -/

/-- What the base `b` to the exponent `e` may come to if it is not expanded: it disappears, it stays
a factor, or the power is one of a number that is evaluated. -/
inductive Comes (b e m : Expr) : Prop where
  | one (he : e = num 0) (hb : b ≠ num 0) (hm : m = num 1)
  | factor (hm : IsFactor m) (hb : m.base = b) (he : m.exponent = e)
  | number (q x : Rat) (hb : b = num q) (he : e = num x) (h0 : x ≠ 0)
      (hs : ¬(Expr.power (num q) (num x)).IsSettled)

/-- A base comes to its power in one of these ways, unless it is a product and the exponent an
integer. -/
theorem comes_of_power (hb : b.IsStable) (hpow : b.isPower = false) (hone : b.isOne = false)
    (he : e.IsStable) (hprod : ∀ k : ℤ, e = num k → k ≠ 0 → b.isProduct = false)
    (h : power b e = .ok m) : Comes b e m := by
  cases hz : e.isZero with
  | true =>
    have he0 : e = num 0 := by
      cases e with
      | num q => simpa [Expr.isZero] using hz
      | _ => cases hz
    rw [power_eq, if_pos hz] at h
    cases hbz : b.isZero with
    | true =>
      rw [hbz] at h
      cases h
    | false =>
      rw [hbz] at h
      refine .one he0 ?_ (Except.ok.inj h).symm
      rintro rfl
      cases hbz
  | false =>
    have hbase : IsBase b e := by
      refine ⟨hb, hpow, hone, fun hint => ?_⟩
      cases e with
      | num x =>
        have hden : x.den = 1 := by simpa [Expr.isInteger] using hint
        refine hprod x.num (congrArg num ((Rat.den_eq_one_iff x).mp hden).symm) ?_
        simpa [Expr.isZero] using hz
      | _ => cases hint
    -- Only numbers to numbers are evaluated; every other power stays a factor.
    by_cases hnum : b.isNum = true ∧ e.isNum = true
    · obtain ⟨q, rfl⟩ := Expr.exists_eq_num hnum.1
      obtain ⟨x, rfl⟩ := Expr.exists_eq_num hnum.2
      by_cases hs : (Expr.power (num q) (num x)).IsSettled
      · rw [power_fixed hs] at h
        have hstable : (Expr.power (num q) (num x)).IsStable :=
          ⟨hs, .intro trivial (.pair hb.distinct he.distinct), by simp⟩
        exact .factor (Except.ok.inj h ▸ ⟨hstable, rfl, rfl⟩) (Except.ok.inj h ▸ rfl)
          (Except.ok.inj h ▸ rfl)
      · exact .number q x rfl rfl (by simpa [Expr.isZero] using hz) hs
    · have hsymbolic : b.isNum = true → e.isNum = false := fun hbn =>
        Bool.eq_false_iff.mpr fun hen => hnum ⟨hbn, hen⟩
      obtain ⟨g, hg, hfactor, hgb, hge⟩ := hbase.exists_factor he hz hsymbolic
      rw [hg] at h
      exact Except.ok.inj h ▸ .factor hfactor hgb hge

/-! ## Factors that are left of bases -/

section Left

variable {ι : Type*} {I : List ι} {i : ι} {label : ι → Expr} {F : ι → List Expr} {b γ : Expr}

/-- At most one factor is in the list, with the base `b`. -/
def HasOneOf (b : Expr) (l : List Expr) : Prop :=
  l = [] ∨ ∃ g, l = [g] ∧ IsFactor g ∧ g.base = b

/-- What is left of bases has some of these as its bases. -/
theorem sublist_flatMap (h : ∀ i ∈ I, HasOneOf (label i) (F i)) :
    ((I.flatMap F).map Expr.base).Sublist (I.map label) := by
  induction I with
  | nil => exact .slnil
  | cons i I ih =>
    obtain ⟨hi, hI⟩ := List.forall_mem_cons.mp h
    rw [List.flatMap_cons, List.map_append, List.map_cons]
    rcases hi with hnil | ⟨g, hg, -, hgb⟩
    · rw [hnil]
      exact (ih hI).cons _
    · rw [hg, List.map_singleton, hgb]
      exact (ih hI).cons_cons _

/-- What is left of bases is a list of factors. -/
theorem isFactor_flatMap (h : ∀ i ∈ I, HasOneOf (label i) (F i)) :
    ∀ g ∈ I.flatMap F, IsFactor g ∧ ∃ i ∈ I, F i = [g] ∧ g.base = label i := by
  intro g hg
  obtain ⟨i, hi, hg⟩ := List.mem_flatMap.mp hg
  rcases h i hi with hnil | ⟨g', hg', hfactor, hb⟩
  · rw [hnil] at hg
    cases hg
  · rw [hg', List.mem_singleton] at hg
    exact hg ▸ ⟨hfactor, i, hi, hg', hb⟩

/-- What is left of different bases has different bases. -/
theorem haveDistinctBases_flatMap (hI : (I.map label).Nodup) (hs : ∀ i ∈ I, (label i).IsSettled)
    (h : ∀ i ∈ I, HasOneOf (label i) (F i)) : HaveDistinctBases (I.flatMap F) := by
  rw [HaveDistinctBases, Expr.nonNumbers_of_not_isNum fun g hg =>
    (isFactor_flatMap h g hg).1.not_isNum]
  have hsub := sublist_flatMap h
  have hsettled : ∀ b ∈ (I.flatMap F).map Expr.base, b.IsSettled := by
    intro b hb
    obtain ⟨i, hi, rfl⟩ := List.mem_map.mp (hsub.subset hb)
    exact hs i hi
  refine (hI.sublist hsub).imp_of_mem fun hx hy hne => ?_
  rw [← Bool.not_eq_true, (hsettled _ hx).same_iff_eq (hsettled _ hy)]
  exact hne

/-- No exponent of other bases is left. -/
theorem exponentAt_flatMap_eq_zero (hs : ∀ i ∈ I, (label i).IsSettled) (hγ : γ.IsSettled)
    (h : ∀ i ∈ I, HasOneOf (label i) (F i)) (hl : ∀ i ∈ I, label i = γ → F i = []) :
    exponentAt γ (I.flatMap F) = 0 := by
  refine exponentAt_eq_zero fun g hg => ?_
  obtain ⟨-, i, hi, hFi, hgb⟩ := isFactor_flatMap h g (Expr.mem_of_mem_nonNumbers hg)
  rw [hgb, ← Bool.not_eq_true, (hs i hi).same_iff_eq hγ]
  intro hlabel
  rw [hl i hi hlabel] at hFi
  cases hFi

/-- Of a base the exponent is left that is left of the base itself. -/
theorem exponentAt_flatMap (hI : (I.map label).Nodup) (hs : ∀ i ∈ I, (label i).IsSettled)
    (h : ∀ i ∈ I, HasOneOf (label i) (F i)) (hi : i ∈ I) :
    exponentAt (label i) (I.flatMap F) = exponentAt (label i) (F i) := by
  rcases h i hi with hnil | ⟨g, hg, hfactor, hgb⟩
  · rw [hnil]
    refine exponentAt_flatMap_eq_zero hs (hs i hi) h fun j hj hlabel => ?_
    rwa [List.inj_on_of_nodup_map hI hj hi hlabel]
  · have hmem : g ∈ I.flatMap F := List.mem_flatMap.mpr ⟨i, hi, hg ▸ List.mem_singleton.mpr rfl⟩
    have hnon : g ∈ nonNumbers (I.flatMap F) := by
      rwa [Expr.nonNumbers_of_not_isNum fun g hg => (isFactor_flatMap h g hg).1.not_isNum]
    rw [hg, ← hgb, exponentAt_base hfactor.not_isNum rfl,
      exponentAt_of_mem (haveDistinctBases_flatMap hI hs h) hnon]

end Left
end StackAlgebra.Canonical
