import StackAlgebra.Proofs.NormalForm.MergedPower
import StackAlgebra.Proofs.Polynomial.Expansion
import StackAlgebra.Proofs.Value.Product

/-!
# Canonical monomials

The canonical form of a monomial is put together from its coefficient and from the atoms that have
exponents other than zero (`Canonical.monomial`). Products and powers of canonical monomials are
canonical monomials again, with the coefficients and exponents that the laws of powers give them
(`product_monomials`, `power_monomial`): equal atoms merge by adding up integers, and nothing is
expanded or distributed. So the canonical form of a monomial expression is told by the single term
that it expands to (`simplify_monomial`).
-/

namespace StackAlgebra

open StackAlgebra.Expr (num nonNumbers isNum coefficientOf coordinates HaveDistinctBases)
open AddMonoidAlgebra (single)
open scoped List

namespace Atom

variable {a b : Atom} {k j : ℤ}

/-- Different atoms are different expressions. -/
theorem toExpr_injective : Function.Injective toExpr := by
  intro a b h
  cases a <;> cases b <;> simp_all [toExpr]

/-- Atoms are stable. -/
theorem isStable (a : Atom) : a.toExpr.IsStable := by
  cases a with
  | const c => exact Expr.isStable_const c
  | var x => exact Expr.isStable_var x

/-- Atoms are the same expressions only if they are equal. -/
theorem same_iff : a.toExpr.same b.toExpr = true ↔ a = b := by
  rw [a.isStable.settled.same_iff_eq b.isStable.settled, toExpr_injective.eq_iff]

/-- The atom to an integer, as a factor. -/
def factor (a : Atom) (k : ℤ) : Expr :=
  Canonical.bare a.toExpr (num k)

/-- A factor with its base and exponent is the power of the atom to an integer other than zero. -/
theorem factor_spec (a : Atom) (hk : k ≠ 0) : Canonical.power a.toExpr (num k) = .ok (a.factor k) ∧
    Canonical.IsFactor (a.factor k) ∧ (a.factor k).base = a.toExpr ∧
    (a.factor k).exponent = num k := by
  have hbase : Canonical.IsBase a.toExpr (num k) := by
    cases a <;> exact ⟨Atom.isStable _, rfl, rfl, fun _ => rfl⟩
  have hnum : a.toExpr.isNum = false := by cases a <;> rfl
  obtain ⟨g, hg, hfactor, hgb, hge⟩ :=
    hbase.exists_factor (Expr.isStable_num k) (by simpa [Expr.isZero])
    (fun h => by rw [hnum] at h; cases h)
  -- A settled power is told by its base and its exponent.
  have heq : a.factor k = g := by
    rw [factor, ← hgb, ← hge]
    exact hfactor.stable.settled.bare_splitPower
  exact heq ▸ ⟨hg, hfactor, hgb, hge⟩

/-- The atom to an integer other than zero can be a factor. -/
theorem isFactor (a : Atom) (hk : k ≠ 0) : Canonical.IsFactor (a.factor k) :=
  (a.factor_spec hk).2.1

/-- The powers of a power of an atom are powers of the atom. -/
theorem power_factor (a : Atom) (hj : j ≠ 0) (hk : k ≠ 0) :
    Canonical.power (a.factor j) (num k) = .ok (a.factor (j * k)) := by
  by_cases hj1 : j = 1
  · rw [hj1, one_mul]
    exact (a.factor_spec hk).1
  by_cases hk1 : k = 1
  · rw [hk1, mul_one, Int.cast_one, Canonical.power_num_one]
  · have hpower : a.factor j = .power a.toExpr (num j) := if_neg (by simpa [Expr.isOne])
    have hexponent : Canonical.product [num j, num k] = .ok (num ((j * k : ℤ) : ℚ)) := by
      rw [Canonical.product_num_num, Int.cast_mul]
    rw [hpower, Canonical.power_eq, if_neg (by simpa [Expr.isZero]), if_neg (by simpa [Expr.isOne])]
    simp only [hexponent]
    exact (a.factor_spec (mul_ne_zero hj hk)).1

end Atom

namespace Canonical

variable {e f r : Expr} {fs : List Expr} {v w : Atom →₀ ℤ} {c d : ℚ} {k : ℤ} {a : Atom}
  {ps : List (ℚ × (Atom →₀ ℤ))}

/-! ## Canonical monomials -/

/-- The powers of atoms with these exponents. -/
noncomputable def factorsOf (v : Atom →₀ ℤ) : List Expr :=
  v.support.toList.map fun a => a.factor (v a)

/-- The canonical monomial with this coefficient and these exponents. -/
noncomputable def monomial (c : ℚ) (v : Atom →₀ ℤ) : Expr :=
  productOf c (factorsOf v)

/-- The factors are the powers of the atoms whose exponent is not zero. -/
theorem mem_factorsOf : f ∈ factorsOf v ↔ ∃ a, v a ≠ 0 ∧ a.factor (v a) = f := by
  simp [factorsOf]

/-- Powers of atoms are factors. -/
theorem isFactor_of_mem_factorsOf (h : f ∈ factorsOf v) : IsFactor f := by
  obtain ⟨a, ha, rfl⟩ := mem_factorsOf.mp h
  exact a.isFactor ha

/-- Powers of atoms are no sums. -/
theorem not_isSum_of_mem_factorsOf (h : f ∈ factorsOf v) : f.isSum = false := by
  obtain ⟨a, ha, rfl⟩ := mem_factorsOf.mp h
  have hbase := (a.factor_spec ha).2.2.1
  cases hs : a.factor (v a) with
  | sum ts =>
    rw [hs] at hbase
    cases a <;> cases hbase
  | _ => rfl

/-- Powers of atoms are no numbers. -/
theorem nonNumbers_factorsOf (v : Atom →₀ ℤ) : nonNumbers (factorsOf v) = factorsOf v :=
  Expr.nonNumbers_of_not_isNum fun _ hf => (isFactor_of_mem_factorsOf hf).not_isNum

/-- The bases of the factors are the atoms. -/
theorem map_base_factorsOf (v : Atom →₀ ℤ) :
    (factorsOf v).map Expr.base = v.support.toList.map Atom.toExpr := by
  rw [factorsOf, List.map_map]
  refine List.map_congr_left fun a ha => ?_
  exact (a.factor_spec (Finsupp.mem_support_iff.mp (Finset.mem_toList.mp ha))).2.2.1

/-- The factors have different bases. -/
theorem haveDistinctBases_factorsOf (v : Atom →₀ ℤ) : HaveDistinctBases (factorsOf v) := by
  rw [HaveDistinctBases, nonNumbers_factorsOf, map_base_factorsOf, Expr.AreDistinct,
    List.pairwise_map]
  refine v.support.nodup_toList.imp fun hne => ?_
  rw [Bool.eq_false_iff]
  exact fun hs => hne (Atom.same_iff.mp hs)

/-- No rational is distributed over the factors. -/
theorem spread?_factorsOf (c : ℚ) (v : Atom →₀ ℤ) : spread? c (factorsOf v) = none := by
  refine spread?_eq_none fun ts hsum => ?_
  have hmem : Expr.sum ts ∈ factorsOf v := hsum ▸ List.mem_singleton.mpr rfl
  cases not_isSum_of_mem_factorsOf hmem

/-- Canonical monomials are stable. -/
theorem stable_monomial (c : ℚ) (v : Atom →₀ ℤ) : (monomial c v).IsStable :=
  stable_productOf (fun _ hf => (isFactor_of_mem_factorsOf hf).not_isNum)
    (fun _ hf => (isFactor_of_mem_factorsOf hf).not_isProduct)
    (fun _ hf => (isFactor_of_mem_factorsOf hf).stable) (haveDistinctBases_factorsOf v)
    (spread?_factorsOf c v)

/-- A monomial without atoms is its coefficient. -/
theorem monomial_zero_right (c : ℚ) : monomial c 0 = num c := by
  have hnil : factorsOf 0 = [] := by simp [factorsOf]
  rw [monomial, hnil, productOf]
  split_ifs with h0 h1
  · rw [h0]
  · rw [h1]
    rfl
  · rfl

/-- A monomial with the coefficient zero is zero. -/
theorem monomial_zero_left (v : Atom →₀ ℤ) : monomial 0 v = num 0 := by
  rw [monomial, productOf, if_pos rfl]

/-- A power of a single atom is a monomial. -/
theorem monomial_single (a : Atom) (hk : k ≠ 0) : monomial 1 (.single a k) = a.factor k := by
  have hone : factorsOf (.single a k) = [a.factor k] := by
    rw [factorsOf, Finsupp.support_single a hk, Finset.toList_singleton, List.map_singleton,
      Finsupp.single_eq_same]
  rw [monomial, hone, productOf, if_neg one_ne_zero, if_pos rfl]
  rfl

/-- The coefficient of a monomial and its other factors. -/
theorem factors_monomial (hc : c ≠ 0) (v : Atom →₀ ℤ) : coefficientOf (monomial c v).factors = c ∧
    nonNumbers (monomial c v).factors ~ factorsOf v :=
  factors_productOf (fun _ hf => (isFactor_of_mem_factorsOf hf).not_isNum)
    (fun _ hf => (isFactor_of_mem_factorsOf hf).not_isProduct) hc

/-- The exponent of an atom among the factors. -/
theorem exponentAt_factorsOf (v : Atom →₀ ℤ) (a : Atom) :
    exponentAt a.toExpr (factorsOf v) = (num (v a)).coordinates := by
  by_cases ha : v a = 0
  · rw [ha, Int.cast_zero, coordinates_zero]
    refine exponentAt_eq_zero fun f hf => ?_
    obtain ⟨b, hb, rfl⟩ := mem_factorsOf.mp (Expr.mem_of_mem_nonNumbers hf)
    rw [(b.factor_spec hb).2.2.1, Bool.eq_false_iff]
    exact fun hs => hb (Atom.same_iff.mp hs ▸ ha)
  · have hmem : a.factor (v a) ∈ nonNumbers (factorsOf v) := by
      rw [nonNumbers_factorsOf]
      exact mem_factorsOf.mpr ⟨a, ha, rfl⟩
    obtain ⟨-, -, hbase, hexponent⟩ := a.factor_spec ha
    rw [← hbase, exponentAt_of_mem (haveDistinctBases_factorsOf v) hmem, hexponent]

/-- Monomials are no sums. -/
theorem not_isSum_monomial (c : ℚ) (v : Atom →₀ ℤ) : (monomial c v).isSum = false := by
  by_cases hc : c = 0
  · rw [hc, monomial_zero_left]
    rfl
  have hperm := (factors_monomial hc v).2
  cases hs : monomial c v with
  | sum ts =>
    rw [hs] at hperm
    cases not_isSum_of_mem_factorsOf (hperm.mem_iff.mp (List.mem_singleton.mpr rfl))
  | _ => rfl

/-- The coefficient of a monomial. -/
theorem coefficientOf_monomial (c : ℚ) (v : Atom →₀ ℤ) :
    coefficientOf (monomial c v).factors = c := by
  by_cases hc : c = 0
  · rw [hc, monomial_zero_left]
    exact mul_one 0
  · exact (factors_monomial hc v).1

/-- A monomial whose coefficient is not zero is not zero. -/
theorem monomial_ne_zero (hc : c ≠ 0) (v : Atom →₀ ℤ) : monomial c v ≠ num 0 := by
  intro h
  have hcoef := coefficientOf_monomial c v
  rw [h] at hcoef
  exact hc (hcoef.symm.trans (mul_one 0))

/-- The exponent of an atom in a monomial. -/
theorem exponentAt_monomial (hc : c ≠ 0) (v : Atom →₀ ℤ) (a : Atom) :
    exponentAt a.toExpr (monomial c v).factors = (num (v a)).coordinates := by
  rw [← exponentAt_factorsOf]
  refine exponentAt_perm ?_
  rw [nonNumbers_factorsOf]
  exact (factors_monomial hc v).2

/-- Canonical monomials with the same coefficient other than zero have the same exponents. -/
theorem monomial_injective (hc : c ≠ 0) : Function.Injective (monomial c) := by
  intro v w h
  ext a
  have hexponent := exponentAt_monomial hc v a
  rw [h, exponentAt_monomial hc w a] at hexponent
  have heq := eq_of_coordinates_eq (Expr.settled_num _) (Expr.settled_num _) hexponent
  exact_mod_cast (Expr.num.inj heq).symm

/-! ## Products -/

/-- Canonical monomials with these coefficients and exponents. -/
noncomputable def monomials (ps : List (ℚ × (Atom →₀ ℤ))) : List Expr :=
  ps.map fun p => monomial p.1 p.2

/-- Canonical monomials are stable, one by one. -/
theorem stable_monomials (ps : List (ℚ × (Atom →₀ ℤ))) : ∀ f ∈ monomials ps, f.IsStable := by
  intro f hf
  obtain ⟨p, -, rfl⟩ := List.mem_map.mp hf
  exact stable_monomial p.1 p.2

/-- The factors of monomials have the product of the coefficients. -/
theorem coefficientOf_monomials (ps : List (ℚ × (Atom →₀ ℤ))) :
    coefficientOf ((monomials ps).flatMap Expr.factors) = (ps.map Prod.fst).prod := by
  rw [coefficientOf_flatMap, monomials, List.map_map]
  exact congrArg List.prod (List.map_congr_left fun p _ => coefficientOf_monomial p.1 p.2)

/-- The exponents of an atom in monomials add up. -/
theorem exponentAt_monomials (h : ∀ p ∈ ps, p.1 ≠ 0) (a : Atom) :
    exponentAt a.toExpr ((monomials ps).flatMap Expr.factors) =
      (num ((ps.map Prod.snd).sum a)).coordinates := by
  induction ps with
  | nil => exact coordinates_zero.symm
  | cons p ps ih =>
    obtain ⟨hp, h⟩ := List.forall_mem_cons.mp h
    rw [monomials, List.map_cons, List.flatMap_cons, exponentAt_append, exponentAt_monomial hp,
      ← monomials, ih h, List.map_cons, List.sum_cons, Finsupp.add_apply, Int.cast_add,
      coordinates_num_add]

/-- The bases in monomials are atoms. -/
theorem exists_atom (h : ∀ p ∈ ps, p.1 ≠ 0)
    (hf : f ∈ nonNumbers ((monomials ps).flatMap Expr.factors)) :
    ∃ a : Atom, a.toExpr = f.base := by
  rw [nonNumbers_flatMap] at hf
  obtain ⟨m, hm, hf⟩ := List.mem_flatMap.mp hf
  obtain ⟨p, hp, rfl⟩ := List.mem_map.mp hm
  obtain ⟨a, ha, rfl⟩ := mem_factorsOf.mp ((factors_monomial (h p hp) p.2).2.mem_iff.mp hf)
  exact ⟨a, (a.factor_spec ha).2.2.1.symm⟩

/-- An integer power of an atom is a monomial. -/
theorem power_atom (a : Atom) (k : ℤ) :
    power a.toExpr (num k) = .ok (monomial 1 (.single a k)) := by
  by_cases hk : k = 0
  · rw [hk, Finsupp.single_zero, monomial_zero_right, Int.cast_zero]
    exact power_num_zero (by cases a <;> nofun)
  · rw [monomial_single a hk]
    exact (a.factor_spec hk).1

/-- If no number among the factors is other than one, the coefficient is one. -/
theorem coefficientOf_eq_one (h : ∀ q, num q ∈ fs → q = 1) : coefficientOf fs = 1 := by
  induction fs with
  | nil => rfl
  | cons f fs ih =>
    have ih := ih fun q hq => h q (List.mem_cons_of_mem _ hq)
    cases hn : f.isNum with
    | true =>
      obtain ⟨q, rfl⟩ := Expr.exists_eq_num hn
      rw [coefficientOf, ih, h q List.mem_cons_self, mul_one]
    | false => rw [coefficientOf_cons hn, ih]

/-- Factors whose bases are atoms with integer exponents. -/
structure HaveExponents (fs : List Expr) (v : Atom →₀ ℤ) : Prop where
  stable : AreStable fs
  base : ∀ b ∈ basesOf fs, ∃ a : Atom, a.toExpr = b
  exponent : ∀ a : Atom, exponentAt a.toExpr fs = (num (v a)).coordinates

namespace HaveExponents

/-- Each atom comes to the power that its exponent gives it. -/
theorem power_eq_ok (h : HaveExponents fs v) (a : Atom) :
    power a.toExpr (totalExponent a.toExpr fs) = .ok (monomial 1 (.single a (v a))) := by
  rw [(h.stable.totalExponent_eq_iff (Expr.settled_num (v a))).mpr (h.exponent a)]
  exact power_atom a (v a)

/-- Atoms that are no bases have the exponent zero. -/
theorem mem_basesOf (h : HaveExponents fs v) (ha : v a ≠ 0) : a.toExpr ∈ basesOf fs := by
  by_contra hn
  have hzero := totalExponent_of_not_mem h.stable.areFactors a.isStable.settled hn
  rw [h.stable.totalExponent_eq_iff (Expr.settled_num 0), h.exponent a] at hzero
  have heq := eq_of_coordinates_eq (Expr.settled_num _) (Expr.settled_num _) hzero
  exact ha (by exact_mod_cast Expr.num.inj heq)

/-- The merged powers that are no numbers are the powers of atoms with these exponents. -/
theorem nonNumbers_merged_perm (h : HaveExponents fs v) :
    nonNumbers ((basesOf fs).map (mergedPower fs)) ~ factorsOf v := by
  have hmerged (a : Atom) : mergedPower fs a.toExpr = monomial 1 (.single a (v a)) :=
    mergedPower_eq (h.power_eq_ok a)
  -- What is no number has its base, so that different bases come to different factors.
  have hbase : ∀ b ∈ basesOf fs, (mergedPower fs b).isNum = false → ∃ a, a.toExpr = b ∧ v a ≠ 0 ∧
      mergedPower fs b = a.factor (v a) := by
    intro b hb hn
    obtain ⟨a, rfl⟩ := h.base b hb
    have ha : v a ≠ 0 := by
      intro ha
      rw [hmerged, ha, Finsupp.single_zero, monomial_zero_right] at hn
      cases hn
    exact ⟨a, rfl, ha, (hmerged a).trans (monomial_single a ha)⟩
  have hleft : (nonNumbers ((basesOf fs).map (mergedPower fs))).Nodup := by
    rw [nonNumbers, List.Nodup, List.pairwise_filter, List.pairwise_map]
    refine (nodup_basesOf fs).imp_of_mem fun {b d} hb hd hne hbn hdn heq => hne ?_
    obtain ⟨x, rfl, hx, hxf⟩ := hbase b hb (by simpa using hbn)
    obtain ⟨y, rfl, hy, hyf⟩ := hbase d hd (by simpa using hdn)
    rw [← (x.factor_spec hx).2.2.1, ← (y.factor_spec hy).2.2.1, ← hxf, ← hyf, heq]
  have hright : (factorsOf v).Nodup := by
    refine List.Nodup.of_map Expr.base ?_
    rw [map_base_factorsOf]
    exact v.support.nodup_toList.map Atom.toExpr_injective
  refine (List.perm_ext_iff_of_nodup hleft hright).mpr fun f => ⟨fun hf => ?_, fun hf => ?_⟩
  · obtain ⟨b, hb, rfl⟩ := List.mem_map.mp (Expr.mem_of_mem_nonNumbers hf)
    obtain ⟨a, -, ha, heq⟩ := hbase b hb (Expr.isNum_of_mem_nonNumbers hf)
    exact mem_factorsOf.mpr ⟨a, ha, heq.symm⟩
  · obtain ⟨a, ha, rfl⟩ := mem_factorsOf.mp hf
    refine List.mem_filter.mpr ⟨List.mem_map.mpr ⟨a.toExpr, h.mem_basesOf ha, ?_⟩, ?_⟩
    · rw [hmerged, monomial_single a ha]
    · simp [(a.isFactor ha).not_isNum]

/-- The numbers that atoms come to are ones. -/
theorem coefficientOf_merged (h : HaveExponents fs v) :
    coefficientOf ((basesOf fs).map (mergedPower fs)) = 1 := by
  refine coefficientOf_eq_one fun q hq => ?_
  obtain ⟨b, hb, hbq⟩ := List.mem_map.mp hq
  obtain ⟨a, rfl⟩ := h.base b hb
  have hcoef := coefficientOf_monomial 1 (.single a (v a))
  rw [← mergedPower_eq (h.power_eq_ok a), hbq] at hcoef
  exact (mul_one q).symm.trans hcoef

/-- All bases are merged. -/
theorem forall₂_merged (h : HaveExponents fs v) : List.Forall₂ (fun g m => mergePower g = .ok m)
    (powersOf fs) ((basesOf fs).map (mergedPower fs)) := by
  refine (forall₂_mergePower_iff h.stable.areFactors h.stable.isMeasured).mpr
    (forall₂_mergedPower_iff.mpr fun b hb => ?_)
  obtain ⟨a, rfl⟩ := h.base b hb
  rw [mergedPower_eq (h.power_eq_ok a), h.power_eq_ok a]

/-- Merged powers of atoms are put together to a monomial. -/
theorem multiply_eq_ok (h : HaveExponents fs v) (c : ℚ) :
    multiply c (powersOf fs) ((basesOf fs).map (mergedPower fs)) = .ok (monomial c v) := by
  have hperm := h.nonNumbers_merged_perm
  have hfactor : ∀ f ∈ nonNumbers ((basesOf fs).map (mergedPower fs)), IsFactor f := fun f hf =>
    isFactor_of_mem_factorsOf (hperm.mem_iff.mp hf)
  -- No power of an atom expands to a product.
  have hexpanded : (nonNumbers ((basesOf fs).map (mergedPower fs))).any Expr.isProduct = false :=
    List.any_eq_false.mpr fun f hf => by simp [(hfactor f hf).not_isProduct]
  rw [multiply, if_neg (by simp [hexpanded]), h.coefficientOf_merged, mul_one,
    distribute_perm (fun f hf => (hfactor f hf).stable.settled) hperm, distribute,
    spread?_factorsOf]
  exact inOrder_eq_ok_iff.mpr ⟨rfl, (stable_monomial c v).measured.hasOrder⟩

end HaveExponents

/-- The exponents that monomials have together. -/
theorem haveExponents_opened (h : ∀ p ∈ ps, p.1 ≠ 0) :
    HaveExponents (opened (monomials ps)) (ps.map Prod.snd).sum := by
  have hstable := stable_monomials ps
  have hopen := opened_perm_factors fun f hf => (hstable f hf).settled
  have hnon := hopen.filter (!·.isNum)
  have hos : AreStable (opened (monomials ps)) := fun f hf =>
    ⟨stable_flatMap_factors hstable f (hopen.mem_iff.mp hf),
      not_isProduct_multiplicandsOf _ f (mem_opened.mp hf)⟩
  refine ⟨hos, fun b hb => ?_, fun a => (exponentAt_perm hnon).trans (exponentAt_monomials h a)⟩
  obtain ⟨f, hf, rfl⟩ := (mem_basesOf hos.areFactors).mp hb
  exact exists_atom h (hnon.mem_iff.mp hf)

/-- Monomials multiply by multiplying coefficients and adding up exponents. -/
theorem product_monomials (ps : List (ℚ × (Atom →₀ ℤ))) :
    product (monomials ps) = .ok (monomial (ps.map Prod.fst).prod (ps.map Prod.snd).sum) := by
  have hopen := opened_perm_factors fun f hf => (stable_monomials ps f hf).settled
  have hcoef : coefficientOf (opened (monomials ps)) = (ps.map Prod.fst).prod := by
    rw [Expr.coefficientOf_perm hopen, coefficientOf_monomials]
  by_cases h0 : (ps.map Prod.fst).prod = 0
  · rw [product_eq, if_pos (hcoef.trans h0), h0, monomial_zero_left]
  · have hps : ∀ p ∈ ps, p.1 ≠ 0 := fun p hp hz =>
      h0 (List.prod_eq_zero (hz ▸ List.mem_map_of_mem hp))
    have hexponents := haveExponents_opened hps
    rw [product_eq_multiply (hcoef.trans_ne h0) hexponents.forall₂_merged, hcoef]
    exact hexponents.multiply_eq_ok _

/-! ## Powers -/

/-- A number or a power of an atom, as a monomial. -/
def IsSingle (p : ℚ × (Atom →₀ ℤ)) : Prop :=
  (p.1 ≠ 0 ∧ p.2 = 0) ∨ ∃ a k, k ≠ 0 ∧ p = (1, .single a k)

/-- The coefficient of a number or of a power of an atom is not zero. -/
theorem IsSingle.ne_zero {p : ℚ × (Atom →₀ ℤ)} (h : IsSingle p) : p.1 ≠ 0 := by
  rcases h with ⟨hq, -⟩ | ⟨a, k, -, rfl⟩
  · exact hq
  · exact one_ne_zero

/-- The factors of a monomial are monomials, with its coefficient and its exponents. -/
theorem exists_factors_eq_monomials (hc : c ≠ 0) (v : Atom →₀ ℤ) : ∃ ps, (∀ p ∈ ps, IsSingle p) ∧
    (monomial c v).factors = monomials ps ∧ (ps.map Prod.fst).prod = c ∧
    (ps.map Prod.snd).sum = v := by
  have hfactor : ∀ f ∈ (monomial c v).factors, ∃ p : ℚ × (Atom →₀ ℤ), IsSingle p ∧
      monomial p.1 p.2 = f := by
    intro f hf
    cases hn : f.isNum with
    | true =>
      obtain ⟨q, rfl⟩ := Expr.exists_eq_num hn
      have hq :=
        num_ne_zero_of_mem_factors (stable_monomial c v).settled (monomial_ne_zero hc v) q hf
      exact ⟨(q, 0), .inl ⟨hq, rfl⟩, monomial_zero_right q⟩
    | false =>
      have hmem := (factors_monomial hc v).2.mem_iff.mp (List.mem_filter.mpr ⟨hf, by simp [hn]⟩)
      obtain ⟨a, ha, rfl⟩ := mem_factorsOf.mp hmem
      exact ⟨(1, .single a (v a)), .inr ⟨a, v a, ha, rfl⟩, monomial_single a ha⟩
  -- The factors are these monomials; together they have the coefficient and the exponents of the
  -- whole.
  choose! p hp using hfactor
  have hmap : (monomial c v).factors = monomials ((monomial c v).factors.map p) := by
    rw [monomials, List.map_map]
    exact (List.map_id _).symm.trans (List.map_congr_left fun f hf => (hp f hf).2.symm)
  have hself : (monomials ((monomial c v).factors.map p)).flatMap Expr.factors =
      (monomial c v).factors := by
    rw [← hmap]
    exact Expr.flatMap_factors (stable_monomial c v).settled.not_isProduct_factors
  refine ⟨_, List.forall_mem_map.mpr fun f hf => (hp f hf).1, hmap, ?_, ?_⟩
  · rw [← coefficientOf_monomials, hself, coefficientOf_monomial]
  · ext a
    have hne : ∀ q ∈ (monomial c v).factors.map p, q.1 ≠ 0 :=
      List.forall_mem_map.mpr fun f hf => (hp f hf).1.ne_zero
    have hexponent := exponentAt_monomials hne a
    rw [hself, exponentAt_monomial hc] at hexponent
    have heq := eq_of_coordinates_eq (Expr.settled_num _) (Expr.settled_num _) hexponent
    exact_mod_cast (Expr.num.inj heq).symm

/-- An integer power of a number or of a power of an atom. -/
theorem IsSingle.power_monomial {p : ℚ × (Atom →₀ ℤ)} (h : IsSingle p) (hk : k ≠ 0) :
    power (monomial p.1 p.2) (num k) = .ok (monomial (p.1 ^ k) (k • p.2)) := by
  rcases h with ⟨hq, hp⟩ | ⟨a, j, hj, rfl⟩
  · rw [hp, smul_zero, monomial_zero_right, monomial_zero_right, power_num_int fun h => absurd h hq]
  · rw [monomial_single a hj, a.power_factor hj hk, one_zpow, Finsupp.smul_single, smul_eq_mul,
      mul_comm, monomial_single a (mul_ne_zero hk hj)]

/-- Powers of monomials have the power of the coefficient and the multiples of the exponents. -/
theorem power_monomial (h : power (monomial c v) (num k) = .ok r) :
    r = monomial (c ^ k) (k • v) := by
  by_cases hk0 : k = 0
  · rw [hk0, power_eq, if_pos (by simp [Expr.isZero])] at h
    split_ifs at h
    rw [hk0, zpow_zero, zero_smul, monomial_zero_right]
    exact (Except.ok.inj h).symm
  by_cases hk1 : k = 1
  · rw [hk1, Int.cast_one, power_num_one] at h
    rw [hk1, zpow_one, one_smul]
    exact (Except.ok.inj h).symm
  have h0 : (num (k : ℚ)).isZero = false := by simpa [Expr.isZero]
  have h1 : (num (k : ℚ)).isOne = false := by simpa [Expr.isOne]
  -- Zero has no negative powers. The power of any other monomial is the product of those of its
  -- factors.
  by_cases hc : c = 0
  · have hpos : 0 < k := by
      by_contra hneg
      have hlt : (k : ℚ) < 0 := by exact_mod_cast lt_of_le_of_ne (not_lt.mp hneg) hk0
      rw [hc, monomial_zero_left, power_eq, if_neg (by simp [h0]), if_neg (by simp [h1])] at h
      simp only [numberPower_zero, if_pos hlt] at h
      cases h
    rw [hc, monomial_zero_left, power_num_int fun _ => hpos] at h
    rw [hc, zero_zpow k hk0, monomial_zero_left, ← zero_zpow k hk0]
    exact (Except.ok.inj h).symm
  · obtain ⟨ps, hsingle, hfactors, rfl, rfl⟩ := exists_factors_eq_monomials hc v
    have hpowers : List.Forall₂ (fun f r => power f (num k) = .ok r) (monomials ps)
        (monomials (ps.map fun p => (p.1 ^ k, k • p.2))) := by
      simp only [monomials, List.map_map, List.forall₂_map_left_iff, List.forall₂_map_right_iff,
        List.forall₂_same]
      exact fun p hp => (hsingle p hp).power_monomial hk0
    rw [power_eq_product h0 h1 (by simp [Expr.isInteger]) (hfactors ▸ hpowers) (stable_monomials _),
      product_monomials] at h
    rw [← Except.ok.inj h, List.prod_zpow, List.smul_sum]
    simp only [List.map_map]
    rfl

end Canonical

/-! ## Monomial expressions -/

namespace Expr

open StackAlgebra.Canonical (monomial monomials)

variable {e r : Expr} {fs rs : List Expr}

/-- The expression expands to a single term, and the other one is the canonical monomial with that
term. -/
def HasTerm (e r : Expr) : Prop :=
  ∃ c v, e.expansion = single v c ∧ r = monomial c v

/-- An atom is its own canonical monomial. -/
theorem hasTerm_atom {a : Atom} (h : e.expansion = .ofAtom a) : HasTerm e a.toExpr := by
  refine ⟨1, .single a 1, h, ?_⟩
  rw [Canonical.monomial_single a one_ne_zero, Atom.factor, Canonical.bare,
    if_pos (by simp [isOne])]

/-- Expressions with single terms, one by one. -/
theorem exists_terms (h : List.Forall₂ HasTerm fs rs) :
    ∃ ps : List (ℚ × (Atom →₀ ℤ)), fs.map expansion = (ps.map fun p => single p.2 p.1) ∧
    rs = monomials ps := by
  induction h with
  | nil => exact ⟨[], rfl, rfl⟩
  | cons hfr _ ih =>
    obtain ⟨c, v, he, rfl⟩ := hfr
    obtain ⟨ps, hps, rfl⟩ := ih
    exact ⟨(c, v) :: ps, by rw [List.map_cons, List.map_cons, he, hps], rfl⟩

/-- The canonical form of a monomial is the canonical monomial with the term that it expands to. -/
theorem simplify_monomial (h : IsMonomial e) (hr : e.simplify = .ok r) : HasTerm e r := by
  induction h generalizing r with
  | num q =>
    obtain rfl := Except.ok.inj hr
    exact ⟨q, 0, by rw [expansion], (Canonical.monomial_zero_right q).symm⟩
  | const c =>
    obtain rfl := Except.ok.inj hr
    exact hasTerm_atom (a := .const c) (by rw [expansion])
  | var x =>
    obtain rfl := Except.ok.inj hr
    exact hasTerm_atom (a := .var x) (by rw [expansion])
  | product _ ih =>
    cases simplify_eq_ok_iff.mp hr with
    | product hrs hr =>
      obtain ⟨ps, hps, rfl⟩ :=
        exists_terms (Canonical.forall₂_imp_of_mem hrs fun f hf r hfr => ih f hf hfr)
      rw [Canonical.product_monomials] at hr
      refine ⟨_, _, ?_, (Except.ok.inj hr).symm⟩
      rw [expansion_product, hps, Laurent.prod_map_single]
  | power _ k ih =>
    cases simplify_eq_ok_iff.mp hr with
    | power hb hk hr =>
      obtain ⟨c, v, he, rfl⟩ := ih hb
      obtain rfl := Except.ok.inj hk
      refine ⟨_, _, ?_, Canonical.power_monomial hr⟩
      rw [expansion_power, he, Laurent.zpow_single]

end Expr
end StackAlgebra
