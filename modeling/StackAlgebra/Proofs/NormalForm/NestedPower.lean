import StackAlgebra.Proofs.NormalForm.PowerClash

/-!
# Powers of powers

A factor that is raised twice comes to its power to the product of both exponents (`RaisedTwice`).
So does a stable expression, also where the first power expands products, provided that these are
plain: what is merged then are powers of bases that stay what they are (`Stays`), and merging them
before or after they are raised makes no difference (`power_product_eq`, `power_power`).
-/

namespace StackAlgebra

namespace Expr

/-- The factors of a product have neither numbers nor products as bases, and the product is no
rational times a power of a sum. -/
structure ArePlain (fs : List Expr) : Prop where
  bases : ∀ f ∈ nonNumbers fs, f.base.isNum = false ∧ f.base.isProduct = false
  not_sum : ∀ f, nonNumbers fs = [f] → f.base.isSum = false

/-- The products that the power to `k` expands are plain. -/
def ExpandsPlainly (a : Expr) (k : ℤ) : Prop :=
  ∀ fs y, power (product fs) (num y) ∈ a.factors → (y * k).den = 1 → ArePlain fs

end Expr

namespace Canonical

open StackAlgebra.Expr
  (num nonNumbers isNum coefficientOf coordinates HaveDistinctBases HasDistinctBases ArePlain)
open scoped List

variable {a b e f g p r β : Expr} {fs gs hs A B : List Expr} {c q v w x y z : Rat} {d k : ℤ}

/-! ## Factors that are raised twice -/

/-- What is left of a factor after it was raised to `d`, raised to `k`, is what is left of its power
to `d * k`, and so is the rational. -/
structure RaisedTwice (d k : ℤ) (f : Expr) : Prop where
  rest : raisedRest (d * k) f ~ (raisedRest d f).flatMap (raisedRest k)
  rational : raisedRational (d * k) f =
    raisedRational d f ^ k * ((raisedRest d f).map (raisedRational k)).prod

/-- Rational powers of rational powers. -/
theorem IsRationalPower.mul_int (hq : q ≠ 0) (hx : IsReal q x) (hv0 : v ≠ 0)
    (hv : IsRationalPower q x v) (k : ℤ) :
    IsRationalPower q (x * k) (v ^ k) := by
  induction k using Int.induction_on with
  | zero => exact ⟨by simp, by simp⟩
  | succ k ih =>
    have hadd := ih.add hq (hx.mul_int k) hx hv
    rwa [← zpow_add_one₀ hv0,
      show x * (k : ℤ) + x = x * ((k : ℤ) + 1 : ℤ) by push_cast; ring] at hadd
  | pred k ih =>
    have hadd := ih.add hq (hx.mul_int _) hx.neg hv.neg
    rwa [← zpow_sub_one₀ hv0,
      show x * (-(k : ℤ) : ℤ) + -x = x * (-(k : ℤ) - 1 : ℤ) by push_cast; ring] at hadd

/-- Roots of numbers that are raised twice: the first power is rational, or it leaves a root that
lacks the whole part, by which the second power is shifted. -/
theorem raisedTwice_root (hf : IsFactor (.power (num q) (num x))) (d k : ℤ) :
    RaisedTwice d k (.power (num q) (num x)) := by
  obtain ⟨hq, -⟩ := base_ne_of_root hf.stable.settled
  have hreal := isReal_root hf.stable.settled
  have hmul : x * (d * k : ℤ) = x * d * k := by rw [Int.cast_mul, mul_assoc]
  obtain ⟨y, v, hy, hyr, hyw⟩ := exists_leaves_root hf d
  obtain ⟨hvd, hrd⟩ := rest_of_leaves hy (power_root hf d)
  by_cases hroot : HasRoot q (x * d)
  · -- A rational value is raised once more.
    obtain ⟨rfl, hv⟩ := hyr hroot
    have hpow := hv.mul_int hq (hreal.mul_int d) hy.ne_zero k
    have hraised : raised (d * k) (.power (num q) (num x)) = num (v ^ k) := by
      refine raised_eq ((power_root hf (d * k)).trans ?_)
      rw [hmul]
      exact (rationalPower_eq_num_iff hq).mpr ⟨(hreal.mul_int d).mul_int k, hpow⟩
    constructor
    · rw [raisedRest, hraised, hrd]
      exact .refl _
    · rw [raisedRational, hraised, hvd, hrd]
      rfl
  · -- The second power is that of the root that is left, shifted by the whole part.
    obtain ⟨rfl, rfl⟩ := hyw (.inr hroot)
    obtain ⟨hrest, hs⟩ := raisedRest_of_not_hasRoot hf hroot
    have hfactor : IsFactor (.power (num q) (num (x * d - (x * d).floor))) :=
      ⟨isStable_root hs, rfl, rfl⟩
    obtain ⟨m, hm⟩ := exists_rationalPower ((isReal_root hs).mul_int k)
    obtain ⟨n, hn, hc, hr⟩ := rationalPower_shift hq hm ((x * d).floor * k)
    have hshift : (x * d - (x * d).floor) * k + ((x * d).floor * k : ℤ) = x * d * k := by
      push_cast
      ring
    rw [hshift, ← hmul] at hn
    have hraised := raised_eq ((power_root hf (d * k)).trans hn)
    have hraised' := raised_eq ((power_root hfactor k).trans hm)
    constructor
    · rw [raisedRest, hraised, hrest, List.flatMap_singleton, raisedRest, hraised', hr]
    · rw [raisedRational, hraised, hvd, hrest, List.map_singleton, List.prod_singleton,
        raisedRational, hraised', hc, zpow_mul]

/-- Factors with the same base and the same exponent are the same. -/
theorem eq_of_base_exponent (hf : IsFactor f) (hg : IsFactor g) (hb : f.base = g.base)
    (he : f.exponent.coordinates = g.exponent.coordinates) : f = g := by
  have hexp := eq_of_coordinates_eq hf.settled_exponent hg.settled_exponent he
  have hpow := power_splitPower hf.stable.settled
  rw [hb, hexp, power_splitPower hg.stable.settled] at hpow
  exact (Except.ok.inj hpow).symm

/-- A multiple of an exponent that is no number is none. -/
theorem not_isNum_of_multiple (hd : d ≠ 0) (he : f.exponent.IsSettled)
    (hge : g.exponent.coordinates = (d : Rat) • f.exponent.coordinates)
    (hn : f.exponent.isNum = false) :
    g.exponent.isNum = false := by
  rw [← Bool.not_eq_true]
  intro hgn
  obtain ⟨z, hz⟩ := Expr.exists_eq_num hgn
  rw [eq_num_of_multiple hd he (hz ▸ hge)] at hn
  cases hn

/-- A factor whose power to `d` is expanded by `k` is expanded by `d * k`. -/
theorem isExpandedBy_mul (hf : IsFactor f) (hd : d ≠ 0) (hg : IsFactor g) (hb : g.base = f.base)
    (he : g.exponent.coordinates = (d : Rat) • f.exponent.coordinates) :
    g.IsExpandedBy k ↔ f.IsExpandedBy (d * k) := by
  have hd' : (d : Rat) ≠ 0 := Int.cast_ne_zero.mpr hd
  constructor
  · rintro ⟨fs, y, rfl, hy⟩
    obtain ⟨gs, hgs⟩ :=
      exists_power_of_product hf (hb ▸ rfl) (eq_num_of_multiple hd hf.settled_exponent he)
    refine ⟨gs, _, hgs, ?_⟩
    rwa [Int.cast_mul, mul_comm (d : Rat)⁻¹, mul_assoc, inv_mul_cancel_left₀ hd']
  · rintro ⟨fs, y, rfl, hy⟩
    obtain ⟨gs, hgs⟩ := exists_power_of_product hg (hb ▸ rfl) (eq_num_mul hg.settled_exponent he)
    refine ⟨gs, _, hgs, ?_⟩
    rwa [mul_comm (d : Rat) y, mul_assoc, ← Int.cast_mul]

/-- Factors other than roots of numbers that are raised twice without being expanded. -/
theorem raisedTwice_symbolic (hf : IsFactor f) (hd : d ≠ 0) (hk : k ≠ 0)
    (hsym : f.base.isNum = true → f.exponent.isNum = false) (hed : ¬f.IsExpandedBy d)
    (hek : ¬f.IsExpandedBy (d * k)) : RaisedTwice d k f := by
  obtain ⟨g, hgp, hg, hgb, hge⟩ := exists_raised_factor hf hd hed hsym
  have hgk : ¬g.IsExpandedBy k := fun h => hek ((isExpandedBy_mul hf hd hg hgb hge).mp h)
  have hgsym : g.base.isNum = true → g.exponent.isNum = false := fun hn =>
    not_isNum_of_multiple hd hf.settled_exponent hge (hsym (hgb ▸ hn))
  obtain ⟨s, hsp, hs, hsb, hse⟩ := exists_raised_factor hg hk hgk hgsym
  obtain ⟨t, htp, ht, htb, hte⟩ := exists_raised_factor hf (mul_ne_zero hd hk) hek hsym
  have hst : t = s := by
    refine eq_of_base_exponent ht hs (htb.trans (hsb.trans hgb).symm) ?_
    rw [hte, hse, hge, smul_smul, Int.cast_mul, mul_comm]
  obtain ⟨hvd, hrd, -⟩ := rest_of_factor hg hgb hge hgp
  obtain ⟨hvk, hrk, -⟩ := rest_of_factor hs hsb hse hsp
  obtain ⟨hv, hr, -⟩ := rest_of_factor ht htb hte htp
  constructor
  · rw [hr, hrd, List.flatMap_singleton, hrk, hst]
  · rw [hv, hvd, hrd, List.map_singleton, List.prod_singleton, hvk, one_zpow, one_mul]

/-- Factors that are raised twice, one by one. -/
theorem raisedTwice_flatMap (h : ∀ f ∈ fs, RaisedTwice d k f) :
    fs.flatMap (raisedRest (d * k)) ~ (fs.flatMap (raisedRest d)).flatMap (raisedRest k) ∧
      (fs.map (raisedRational (d * k))).prod = (fs.map (raisedRational d)).prod ^ k *
        ((fs.flatMap (raisedRest d)).map (raisedRational k)).prod := by
  constructor
  · rw [List.flatMap_assoc]
    exact List.Perm.flatMap_left _ fun f hf => (h f hf).rest
  · induction fs with
    | nil => simp
    | cons f fs ih =>
      obtain ⟨hf, hfs⟩ := List.forall_mem_cons.mp h
      rw [List.map_cons, List.prod_cons, hf.rational, ih hfs, List.map_cons, List.prod_cons,
        List.flatMap_cons, List.map_append, List.prod_append, mul_zpow]
      ring

/-- What is left of an expression and the rational in front, if its factors are raised twice. -/
theorem powerRest_twice (h : ∀ f ∈ nonNumbers a.factors, RaisedTwice d k f) :
    powerRest (d * k) a ~ (powerRest d a).flatMap (raisedRest k) ∧
      powerRational (d * k) a =
        powerRational d a ^ k * ((powerRest d a).map (raisedRational k)).prod := by
  obtain ⟨hrest, hrational⟩ := raisedTwice_flatMap h
  refine ⟨hrest, ?_⟩
  rw [powerRational, hrational, powerRational, mul_zpow, ← zpow_mul, mul_assoc]
  rfl

/-! ## Plain products -/

/-- Whole powers of plain products expand and distribute nothing. -/
theorem exists_power_plain (h : (Expr.product fs).IsStable) (hfs : ArePlain fs) (hk : k ≠ 0) :
    ¬(Expr.product fs).ExpandsAt k ∧ ∃ p, power (.product fs) (num k) = .ok p ∧
    IsPowerOf (.product fs) k p := by
  have hexp : ¬(Expr.product fs).ExpandsAt k := by
    rintro ⟨-, f, hf, gs, y, rfl, -⟩
    cases (hfs.bases _ (List.mem_filter.mpr ⟨hf, rfl⟩)).2
  -- A rational would be distributed over a sum only if that was the one base beside roots of
  -- numbers.
  have hspread := spread_eq_none fun ts hts => by
    obtain ⟨f, hf, hb, -, hall⟩ := base_of_spread h hk hexp hts
    have hone : nonNumbers fs = [f] := by
      have hnodup : (nonNumbers fs).Nodup := (bases_of_isStable h).1.of_map
      refine List.perm_singleton.mp
        ((List.perm_ext_iff_of_nodup hnodup (List.nodup_singleton f)).mpr fun g => ?_)
      rw [List.mem_singleton]
      refine ⟨fun hg => (hall g hg).resolve_right ?_, fun hg => hg ▸ hf⟩
      rw [(hfs.bases g hg).1]
      exact Bool.false_ne_true
    have hsum := hfs.not_sum f hone
    rw [hb] at hsum
    cases hsum
  have h0 : Expr.product fs ≠ num 0 := nofun
  obtain ⟨p, hp, -⟩ := exists_power h h0 hexp hspread
  exact ⟨hexp, p, hp, isPowerOf_of_spread_eq_none h h0 hexp hspread hp⟩

/-- The exponent to which a factor is expanded is not zero. -/
theorem whole_ne_zero (hf : IsFactor (.power b (num y))) {i : ℤ} (hd : d ≠ 0) (hi : y * d = i) :
    i ≠ 0 := by
  have hy : y ≠ 0 := by
    rintro rfl
    have hexp := hf.exponent_ne_zero
    cases hexp
  rintro rfl
  exact mul_ne_zero hy (Int.cast_ne_zero.mpr hd) (hi.trans Int.cast_zero)

/-- What a factor comes to that is expanded to a plain product. -/
theorem raised_plain (hf : IsFactor (.power (.product fs) (num y)))
    (hfs : ArePlain fs) {i : ℤ} (hd : d ≠ 0) (hi : y * d = i) :
    IsPowerOf (.product fs) i (raised d (.power (.product fs) (num y))) ∧
      power (.power (.product fs) (num y)) (num d) =
        .ok (raised d (.power (.product fs) (num y))) := by
  obtain ⟨-, p, hp, hpow⟩ :=
    exists_power_plain (hf.stable.child (by simp)) hfs (whole_ne_zero hf hd hi)
  have hraised := raised_eq ((power_expanded hf hd hi).trans hp)
  rw [hraised]
  exact ⟨hpow, (power_expanded hf hd hi).trans hp⟩

/-- What is left of a factor that is expanded to a plain product and raised again. -/
theorem raisedTwice_plain (hf : IsFactor (.power (.product fs) (num y)))
    (hfs : ArePlain fs) {i : ℤ} (hd : d ≠ 0) (hk : k ≠ 0) (hi : y * d = i) :
    RaisedTwice d k (.power (.product fs) (num y)) := by
  have hi0 := whole_ne_zero hf hd hi
  have hstable : (Expr.product fs).IsStable := hf.stable.child (by simp)
  obtain ⟨hu, -⟩ := raised_plain hf hfs hd hi
  obtain ⟨hw, -⟩ :=
    raised_plain (i := i * k) hf hfs (mul_ne_zero hd hk) (by push_cast; rw [← hi, mul_assoc])
  have hexp := fun {j : ℤ} (hj : j ≠ 0) => (exists_power_plain hstable hfs hj).1
  obtain ⟨hrest, hrational⟩ := powerRest_twice (a := .product fs) (d := i) (k := k) fun g hg =>
    raisedTwice_symbolic (isFactor_of_mem hstable g hg) hi0 hk
      (fun hn => by
        rw [(hfs.bases g hg).1] at hn
        cases hn)
      (not_isExpandedBy (hexp hi0) hg hi0)
        (not_isExpandedBy (hexp (mul_ne_zero hi0 hk)) hg (mul_ne_zero hi0 hk))
  constructor
  · exact hw.rest.trans (hrest.trans (hu.rest.symm.flatMap_right _))
  · rw [raisedRational, hw.coefficient, hrational, raisedRational, hu.coefficient]
    exact congrArg _ (hu.rest.map (raisedRational k)).prod_eq.symm

/-! ## Bases that stay what they are -/

/-- The base comes to nothing or to one factor with the exponents of it added up. -/
inductive Stays (fs : List Expr) (β : Expr) : Prop where
  | none (ht : totalExponent β fs = num 0) (hpow : power β (num 0) = .ok (num 1))
  | one (g : Expr) (hg : IsFactor g) (hb : g.base = β) (he : g.exponent = totalExponent β fs)

/-- What is left of a base whose exponents add up to zero. -/
theorem leftover_of_zero (h : totalExponent β fs = num 0) :
    leftover fs β = [] ∧ rationalPart fs β = 1 := by
  rw [leftover, rationalPart, mergedPower_of_zero h]
  exact ⟨rfl, mul_one 1⟩

/-- What is left of a base whose exponents add up to that of a factor. -/
theorem leftover_of_factor (hg : IsFactor g) (he : g.exponent = totalExponent g.base fs) :
    leftover fs g.base = [g] ∧ rationalPart fs g.base = 1 ∧
      power g.base (totalExponent g.base fs) = .ok (mergedPower fs g.base) := by
  have hpow := power_splitPower hg.stable.settled
  rw [he] at hpow
  have hmerged := mergedPower_eq hpow
  rw [leftover, rationalPart, hmerged]
  exact ⟨hg.nonNumbers_factors, hg.coefficientOf_factors, hpow⟩

/-- What a base that stays comes to. -/
theorem Stays.spec (h : Stays fs β) :
    power β (totalExponent β fs) = .ok (mergedPower fs β) ∧ LeavesOne fs β ∧
    rationalPart fs β = 1 := by
  cases h with
  | none ht hpow =>
    obtain ⟨hl, hr⟩ := leftover_of_zero ht
    refine ⟨?_, .inl hl, hr⟩
    rw [mergedPower_of_zero ht, ht, hpow]
  | one g hg hb he =>
    subst hb
    obtain ⟨hl, hr, hp⟩ := leftover_of_factor hg he
    exact ⟨hp, .inr ⟨g, hl, hg, rfl⟩, hr⟩

/-- Bases that are neither numbers nor products stay. -/
theorem stays_of_base (h : AreStable fs) (hβ : β ∈ basesOf fs) (hn : β.isNum = false)
    (hp : β.isProduct = false) :
    Stays fs β := by
  obtain ⟨hs, hpower, hone⟩ := h.isBase hβ
  by_cases ht : totalExponent β fs = num 0
  · refine .none ht (power_num_zero ?_)
    rintro rfl
    cases hn
  · have hzero : (totalExponent β fs).isZero = false := by rwa [← Bool.not_eq_true, Expr.isZero_iff]
    obtain ⟨g, -, hg, hgb, hge⟩ :=
      IsBase.exists_factor ⟨hs, hpower, hone, fun _ => hp⟩ (h.totalExponent β) hzero fun hb => by
        rw [hn] at hb
        cases hb
    exact .one g hg hgb hge

/-- Where all bases stay a product is put together from what is left of them. -/
theorem product_of_stays (h : ∀ f ∈ A, f.IsStable) (h0 : coefficientOf (A.flatMap Expr.factors) ≠ 0)
    (hstays : ∀ β ∈ basesOf (A.flatMap Expr.factors), Stays (A.flatMap Expr.factors) β) :
    product A = distribute (coefficientOf (A.flatMap Expr.factors))
      ((basesOf (A.flatMap Expr.factors)).flatMap (leftover (A.flatMap Expr.factors))) := by
  have hone : ((basesOf (A.flatMap Expr.factors)).map
      (rationalPart (A.flatMap Expr.factors))).prod = 1 := by
    refine List.prod_eq_one fun c hc => ?_
    obtain ⟨β, hβ, rfl⟩ := List.mem_map.mp hc
    exact (hstays β hβ).spec.2.2
  rw [product_eq_distribute h (fun β hβ => (hstays β hβ).spec.1) (by rwa [hone, mul_one])
    fun β hβ => (hstays β hβ).spec.2.1, hone, mul_one]

/-- A base that stays and whose factor is raised stays. -/
theorem Stays.raised (h : Stays fs β) (hgs : AreStable gs) (hk : k ≠ 0)
    (hexp : ∀ g ∈ leftover fs β, ¬g.IsExpandedBy k)
    (he : exponentAt β gs = exponentAt β ((leftover fs β).flatMap (raisedRest k))) :
    Stays gs β ∧ leftover gs β = (leftover fs β).flatMap (raisedRest k) := by
  have hzero : exponentAt β gs = 0 → totalExponent β gs = num 0 := fun hz => by
    rw [hgs.totalExponent_eq_iff (Expr.settled_num 0), hz, coordinates_zero]
  -- The base stays as soon as its exponents add up to those of a factor.
  have hfactor : ∀ g, IsFactor g → g.base = β → exponentAt β gs = exponentAt β [g] →
      Stays gs β ∧ leftover gs β = [g] := by
    rintro g hg rfl hge
    have htotal : g.exponent = totalExponent g.base gs := by
      refine ((hgs.totalExponent_eq_iff hg.settled_exponent).mpr ?_).symm
      rw [hge, exponentAt_base hg.not_isNum rfl]
    exact ⟨.one g hg rfl htotal, (leftover_of_factor hg htotal).1⟩
  cases h with
  | none ht hpow =>
    rw [(leftover_of_zero ht).1] at he ⊢
    exact ⟨.none (hzero he) hpow, (leftover_of_zero (hzero he)).1⟩
  | one g hg hb htotal =>
    subst hb
    obtain ⟨hl, -⟩ := leftover_of_factor hg htotal
    rw [hl, List.flatMap_singleton] at he ⊢
    cases raises_of_factor hg fun _ => hexp g (hl ▸ List.mem_singleton.mpr rfl) with
    | zero h0 => exact absurd h0 hk
    | factor _ s hs hsb hse hpow =>
      rw [(rest_of_factor hs hsb hse hpow).2.1] at he ⊢
      exact hfactor s hs hsb he
    | root q x hq hpow =>
      subst hq
      obtain ⟨y, v, hy, -⟩ := exists_leaves_root hg k
      rw [(rest_of_leaves hy hpow).2, rootOf] at he ⊢
      split_ifs at he ⊢ with hy0
      · have hbase : power (num q) (num 0) = .ok (num 1) := power_num_zero fun hq => by
          exact (base_ne_of_root hg.stable.settled).1 (Expr.num.inj hq)
        exact ⟨.none (hzero he) hbase, (leftover_of_zero (hzero he)).1⟩
      · exact hfactor _ ⟨isStable_root (hy.settled.resolve_left hy0), rfl, rfl⟩ rfl he

/-! ## Products of factors whose powers may be evaluated alone -/

/-- Numbers and products: the bases whose powers may be evaluated. -/
def isEvaluable (b : Expr) : Bool :=
  b.isNum || b.isProduct

/-- The powers of numbers and of products in the list have different bases. -/
def HaveOwnBases (fs : List Expr) : Prop :=
  ((fs.filter fun f => isEvaluable f.base).map Expr.base).Nodup

variable {F : Expr → List Expr}

/-- Of a number or a product the exponent is left that is left of the one factor with that base. -/
theorem HaveOwnBases.exponentAt_flatMap (hown : HaveOwnBases fs) (hs : ∀ f ∈ fs, f.base.IsSettled)
    (h : ∀ f ∈ fs, HasOneOf f.base (F f)) (hf : f ∈ fs) (he : isEvaluable f.base = true) :
    exponentAt f.base (fs.flatMap F) = exponentAt f.base (F f) := by
  have hsplit :=
    ((List.filter_append_perm (fun f => isEvaluable f.base) fs).symm.flatMap_right F).filter
    fun f => !f.isNum
  rw [List.flatMap_append] at hsplit
  have hself : exponentAt f.base ((fs.filter fun f => isEvaluable f.base).flatMap F) =
      exponentAt f.base (F f) :=
    Canonical.exponentAt_flatMap hown (fun g hg => hs g (List.mem_of_mem_filter hg))
      (fun g hg => h g (List.mem_of_mem_filter hg)) (List.mem_filter.mpr ⟨hf, he⟩)
  have hother : exponentAt f.base ((fs.filter fun f => !isEvaluable f.base).flatMap F) = 0 := by
    refine exponentAt_flatMap_eq_zero (fun g hg => hs g (List.mem_of_mem_filter hg)) (hs f hf)
      (fun g hg => h g (List.mem_of_mem_filter hg)) fun g hg hb => ?_
    have hne := (List.mem_filter.mp hg).2
    rw [hb, he] at hne
    cases hne
  rw [exponentAt_perm hsplit, exponentAt_append, hself, hother, add_zero]

/-- A number or a product has the exponent of the one factor with that base. -/
theorem HaveOwnBases.exponentAt_eq (hown : HaveOwnBases fs) (hfs : ∀ f ∈ fs, IsFactor f)
    (hf : f ∈ fs) (he : isEvaluable f.base = true) :
    exponentAt f.base fs = f.exponent.coordinates := by
  have hself := hown.exponentAt_flatMap
    (fun f hf => (hfs f hf).settled_base) (fun f hf => .inr ⟨f, rfl, hfs f hf, rfl⟩) hf he
  rw [List.flatMap_singleton'] at hself
  rw [hself, exponentAt_base (hfs f hf).not_isNum rfl]

/-- What is left of factors that are raised has the bases of the factors. -/
theorem hasOneOf_raisedRest (hf : IsFactor f) (hexp : ¬f.IsExpandedBy k) :
    HasOneOf f.base (raisedRest k f) :=
  (isRaised_of_raises hf (raises_of_factor hf fun _ => hexp)).rest

/-- The exponents of a base that is no number are multiplied where factors are raised. -/
theorem exponentAt_flatMap_raisedRest (hfs : ∀ f ∈ fs, IsFactor f)
    (hexp : ∀ f ∈ fs, ¬f.IsExpandedBy k) (hβ : β.IsSettled) (hn : β.isNum = false) :
    exponentAt β (fs.flatMap (raisedRest k)) = (k : Rat) • exponentAt β fs := by
  induction fs with
  | nil => exact (smul_zero _).symm
  | cons f fs ih =>
    obtain ⟨hf, hfs⟩ := List.forall_mem_cons.mp hfs
    obtain ⟨hef, hexp⟩ := List.forall_mem_cons.mp hexp
    have hcons := exponentAt_append β [f] fs
    rw [List.singleton_append] at hcons
    rw [List.flatMap_cons, exponentAt_append, ih hfs hexp, hcons, smul_add]
    congr 1
    have hbase := hf.settled_base
    by_cases hb : f.base = β
    · subst hb
      have hsym : f.base.isNum = true → f.exponent.isNum = false := fun h => by
        rw [hn] at h
        cases h
      rw [exponentAt_raisedRest hf (fun _ => hef) hsym, exponentAt_base hf.not_isNum rfl]
    · have hsame : f.base.same β = false := by rwa [← Bool.not_eq_true, hbase.same_iff_eq hβ]
      have hrest : exponentAt β (raisedRest k f) = 0 := by
        have hzero := exponentAt_flatMap_eq_zero (I := [f]) (List.forall_mem_singleton.mpr hbase) hβ
          (List.forall_mem_singleton.mpr (hasOneOf_raisedRest hf hef))
          (List.forall_mem_singleton.mpr fun h => absurd h hb)
        rwa [List.flatMap_singleton] at hzero
      rw [hrest, exponentAt_singleton hf.not_isNum, hsame, if_neg Bool.false_ne_true, smul_zero]

/-- The product of what a function has for the factors is that for those for which it is not one. -/
theorem prod_map_filter {φ : Expr → Rat} {s : Expr → Bool} (h : ∀ f ∈ fs, s f = false → φ f = 1) :
    (fs.map φ).prod = ((fs.filter s).map φ).prod := by
  induction fs with
  | nil => rfl
  | cons f fs ih =>
    obtain ⟨hf, hfs⟩ := List.forall_mem_cons.mp h
    rw [List.map_cons, List.prod_cons, ih hfs]
    cases hs : s f with
    | true => rw [List.filter_cons_of_pos hs, List.map_cons, List.prod_cons]
    | false => rw [List.filter_cons_of_neg (by simp [hs]), hf hs, one_mul]

/-- Factors that are no numbers. -/
theorem AreStable.isFactor (h : AreStable fs) : ∀ f ∈ nonNumbers fs, IsFactor f := fun f hf =>
  have hmem := Expr.mem_of_mem_nonNumbers hf
  ⟨(h f hmem).1, Expr.isNum_of_mem_nonNumbers hf, (h f hmem).2⟩

/-- Of a number or a product its one factor is left. -/
theorem exponent_of_own (h : AreStable fs) (hown : HaveOwnBases (nonNumbers fs))
    (hf : f ∈ nonNumbers fs) (he : isEvaluable f.base = true) :
    f.exponent = totalExponent f.base fs := by
  refine ((h.totalExponent_eq_iff (h.isFactor f hf).settled_exponent).mpr ?_).symm
  rw [← hown.exponentAt_eq h.isFactor hf he]
  exact (exponentAt_nonNumbers _ _).symm

/-- All bases stay if the powers of numbers and products have different ones. -/
theorem stays_of_own (h : AreStable fs) (hown : HaveOwnBases (nonNumbers fs)) :
    ∀ β ∈ basesOf fs, Stays fs β := by
  intro β hβ
  obtain ⟨f, hf, rfl⟩ := (mem_basesOf h.areFactors).mp hβ
  cases he : isEvaluable f.base with
  | true => exact .one f (h.isFactor f hf) rfl (exponent_of_own h hown hf he)
  | false =>
    obtain ⟨hn, hp⟩ := Bool.or_eq_false_iff.mp he
    exact stays_of_base h hβ hn hp

/-- The powers of numbers and products are what is left of their bases. -/
theorem mem_leftover_iff (h : AreStable fs) (hown : HaveOwnBases (nonNumbers fs))
    (he : isEvaluable g.base = true) :
    g ∈ (basesOf fs).flatMap (leftover fs) ↔ g ∈ nonNumbers fs := by
  have hleft : ∀ f ∈ nonNumbers fs, isEvaluable f.base = true → leftover fs f.base = [f] :=
    fun f hf he =>
    (leftover_of_factor (h.isFactor f hf) (exponent_of_own h hown hf he)).1
  constructor
  · intro hg
    obtain ⟨β, hβ, hg⟩ := List.mem_flatMap.mp hg
    obtain ⟨f, hf, rfl⟩ := (mem_basesOf h.areFactors).mp hβ
    obtain ⟨s, hs, -, hsb⟩ :=
      (stays_of_own h hown _ hβ).spec.2.1.resolve_left (List.ne_nil_of_mem hg)
    have hgb : g.base = f.base := by
      rw [hs, List.mem_singleton] at hg
      rw [hg, hsb]
    rw [hleft f hf (hgb ▸ he), List.mem_singleton] at hg
    exact hg ▸ hf
  · intro hg
    refine List.mem_flatMap.mpr ⟨g.base, (mem_basesOf h.areFactors).mpr ⟨g, hg, rfl⟩, ?_⟩
    rw [hleft g hg he]
    exact List.mem_singleton.mpr rfl

/-- A factor that is no power of a number has no rational in front after it is raised. -/
theorem raisedRational_eq_one (hf : IsFactor f) (hk : k ≠ 0) (hexp : ¬f.IsExpandedBy k)
    (hn : f.base.isNum = false) :
    raisedRational k f = 1 := by
  cases raises_of_factor hf fun _ => hexp with
  | zero h0 => exact absurd h0 hk
  | factor _ g hg hb he h => exact (rest_of_factor hg hb he h).1
  | root q x hq =>
    subst hq
    cases hn

/-- The rationals in front of the powers of factors are those in front of the powers of what is left
of the bases. -/
theorem prod_raisedRational (h : AreStable fs) (hown : HaveOwnBases (nonNumbers fs)) (hk : k ≠ 0)
    (hexp : ∀ f ∈ nonNumbers fs, ¬f.IsExpandedBy k)
    (hexp' : ∀ f ∈ (basesOf fs).flatMap (leftover fs), ¬f.IsExpandedBy k) :
    ((nonNumbers fs).map (raisedRational k)).prod =
      (((basesOf fs).flatMap (leftover fs)).map (raisedRational k)).prod := by
  have hcovers := Covers.self h.areFactors
  have hleaves := fun β hβ => (stays_of_own h hown β hβ).spec.2.1
  have hfactors := isFactor_leftover hleaves
  rw [prod_map_filter (s := fun f => f.base.isNum)
      fun f hf hn => raisedRational_eq_one (h.isFactor f hf) hk (hexp f hf) hn,
    prod_map_filter (s := fun f => f.base.isNum)
      fun f hf hn => raisedRational_eq_one (hfactors f hf) hk (hexp' f hf) hn]
  -- The roots of numbers are the same in both lists.
  refine List.Perm.prod_eq (.map _ ((List.perm_ext_iff_of_nodup ?_ ?_).mpr fun g => ?_))
  · refine hown.of_map.sublist (List.monotone_filter_right _ fun f hn => ?_)
    exact Bool.or_eq_true_iff.mpr (.inl hn)
  · have hd := haveDistinctBases_leftover hcovers.nodup hcovers.settled hleaves
    rw [HaveDistinctBases, Expr.nonNumbers_of_not_isNum fun g hg => (hfactors g hg).not_isNum] at hd
    exact (nodup_of_areDistinct hd).of_map.filter _
  · rw [List.mem_filter, List.mem_filter]
    refine and_congr_left fun hn => ?_
    exact (mem_leftover_iff h hown (Bool.or_eq_true_iff.mpr (.inl hn))).symm

/-- What is left of a base that stays has the exponents of it added up. -/
theorem Stays.exponentAt_leftover (hst : Stays fs β) (h : AreStable fs) :
    exponentAt β (leftover fs β) = exponentAt β fs := by
  have htotal := coordinates_totalExponent h.areFactors β
  cases hst with
  | none ht =>
    rw [(leftover_of_zero ht).1, ← htotal, ht, coordinates_zero]
    rfl
  | one g hg hb he =>
    subst hb
    rw [(leftover_of_factor hg he).1, exponentAt_base hg.not_isNum rfl, he, htotal]

/-- The exponent of a base in the powers of factors is that in the powers of what is left of it. -/
theorem exponentAt_raised_leftover (h : AreStable fs) (hown : HaveOwnBases (nonNumbers fs))
    (hexp : ∀ f ∈ nonNumbers fs, ¬f.IsExpandedBy k) (hβ : β ∈ basesOf fs)
    (hexp' : ∀ f ∈ leftover fs β, ¬f.IsExpandedBy k) :
    exponentAt β ((nonNumbers fs).flatMap (raisedRest k)) =
      exponentAt β ((leftover fs β).flatMap (raisedRest k)) := by
  have hst := stays_of_own h hown β hβ
  have hsettled := settled_of_mem_basesOf h.areFactors hβ
  cases he : isEvaluable β with
  | true =>
    obtain ⟨f, hf, rfl⟩ := (mem_basesOf h.areFactors).mp hβ
    rw [(leftover_of_factor (h.isFactor f hf) (exponent_of_own h hown hf he)).1,
      List.flatMap_singleton]
    exact hown.exponentAt_flatMap (fun g hg => (h.isFactor g hg).settled_base)
      (fun g hg => hasOneOf_raisedRest (h.isFactor g hg) (hexp g hg)) hf he
  | false =>
    obtain ⟨hn, -⟩ := Bool.or_eq_false_iff.mp he
    have hfactors : ∀ g ∈ leftover fs β, IsFactor g := fun g hg =>
      isFactor_leftover (B := [β])
        (List.forall_mem_singleton.mpr hst.spec.2.1) g (by simpa using hg)
    rw [exponentAt_flatMap_raisedRest h.isFactor hexp hsettled hn,
      exponentAt_flatMap_raisedRest hfactors hexp' hsettled hn, hst.exponentAt_leftover h,
      exponentAt_nonNumbers]

/-- A product that is no sum, and in which all bases stay, is stable and consists of what is left of
them. -/
theorem isStable_of_stays (hA : ∀ f ∈ A, f.IsStable) (hgs : A.flatMap Expr.factors = gs)
    (h0 : coefficientOf gs ≠ 0) (hstays : ∀ β ∈ basesOf gs, Stays gs β) (hb : product A = .ok b)
    (hsum : b.isSum = false) :
    b.IsStable ∧ b ≠ num 0 ∧ coefficientOf b.factors = coefficientOf gs ∧
      nonNumbers b.factors ~ (basesOf gs).flatMap (leftover gs) := by
  have hcovers := Covers.self (hgs ▸ AreStable.flatMap hA).areFactors
  have hleaves := fun β hβ => (hstays β hβ).spec.2.1
  have hfactors := isFactor_leftover hleaves
  have hd := haveDistinctBases_leftover hcovers.nodup hcovers.settled hleaves
  rw [product_of_stays hA (hgs ▸ h0) (hgs ▸ hstays), hgs] at hb
  -- A rational is not distributed, for the result would be a sum.
  have hspread : spread? (coefficientOf gs) ((basesOf gs).flatMap (leftover gs)) = none := by
    cases hs : spread? (coefficientOf gs) ((basesOf gs).flatMap (leftover gs)) with
    | none => rfl
    | some ts =>
      obtain ⟨hone, hc0, -⟩ := spread?_eq_some_iff.mp hs
      have hts := (hfactors (.sum ts) (hone ▸ List.mem_singleton.mpr rfl)).stable
      obtain ⟨us, hus, -⟩ := exists_multiple_sum hts hc0
      rw [hone, ← product_num_sum hts hc0, hus] at hb
      obtain rfl := Except.ok.inj hb
      cases hsum
  have hn := fun g hg => (hfactors g hg).not_isNum
  have hp := fun g hg => (hfactors g hg).not_isProduct
  rw [distribute, hspread] at hb
  obtain ⟨rfl, -⟩ := inOrder_eq_ok_iff.mp hb
  obtain ⟨hcoef, hperm⟩ := factors_productOf hn hp h0
  refine ⟨stable_productOf hn hp (fun g hg => (hfactors g hg).stable) hd hspread, fun hz => ?_,
    hcoef, hperm⟩
  rw [hz] at hcoef
  exact h0 (hcoef.symm.trans (zero_mul 1))

/-- Each base stays after its factors are raised, and what is left of it is the power of what was
left. -/
theorem stays_raised (h : AreStable fs) (hgs : AreStable gs) (hown : HaveOwnBases (nonNumbers fs))
    (hk : k ≠ 0) (hexp : ∀ f ∈ nonNumbers fs, ¬f.IsExpandedBy k)
    (hexp' : ∀ f ∈ (basesOf fs).flatMap (leftover fs), ¬f.IsExpandedBy k)
    (hrest : nonNumbers gs ~ (nonNumbers fs).flatMap (raisedRest k)) : Covers (basesOf fs) gs ∧
      ∀ β ∈ basesOf fs, Stays gs β ∧ leftover gs β = (leftover fs β).flatMap (raisedRest k) := by
  have hcovers := Covers.self h.areFactors
  refine ⟨⟨hcovers.nodup, hcovers.settled, fun β hβ => ?_⟩, fun β hβ => ?_⟩
  · obtain ⟨g, hg, rfl⟩ := (mem_basesOf hgs.areFactors).mp hβ
    obtain ⟨f, hf, hgf⟩ := List.mem_flatMap.mp (hrest.mem_iff.mp hg)
    have hone := hasOneOf_raisedRest (h.isFactor f hf) (hexp f hf)
    obtain ⟨s, hs, -, hsb⟩ := hone.resolve_left (List.ne_nil_of_mem hgf)
    rw [hs, List.mem_singleton] at hgf
    exact (mem_basesOf h.areFactors).mpr ⟨f, hf, by rw [hgf, hsb]⟩
  · have hexpβ := fun g hg => hexp' g (List.mem_flatMap.mpr ⟨β, hβ, hg⟩)
    refine (stays_of_own h hown β hβ).raised hgs hk hexpβ ?_
    rw [← exponentAt_raised_leftover h hown hexp hβ hexpβ]
    exact exponentAt_of_perm hrest

/-- A product that is no sum is raised by raising the factors, if merging these evaluates nothing:
the powers of numbers and products among them have different bases, and none is expanded. -/
theorem power_product_eq (hA : ∀ f ∈ A, f.IsStable) (hB : ∀ f ∈ B, f.IsStable)
    (hgs : A.flatMap Expr.factors = gs) (hhs : B.flatMap Expr.factors = hs)
    (h0 : coefficientOf gs ≠ 0) (hown : HaveOwnBases (nonNumbers gs))
    (hb : product A = .ok b) (hsum : b.isSum = false) (hk : k ≠ 0) (hexp : ¬b.ExpandsAt k)
    (hrest : nonNumbers hs ~ (nonNumbers gs).flatMap (raisedRest k)) (hrational : coefficientOf hs =
      coefficientOf gs ^ k * ((nonNumbers gs).map (raisedRational k)).prod) :
    power b (num k) = product B := by
  have hgss : AreStable gs := hgs ▸ .flatMap hA
  have hhss : AreStable hs := hhs ▸ .flatMap hB
  obtain ⟨hstable, hb0, hcoef, hperm⟩ :=
    isStable_of_stays hA hgs h0 (stays_of_own hgss hown) hb hsum
  have hexp' : ∀ g ∈ (basesOf gs).flatMap (leftover gs), ¬g.IsExpandedBy k := fun g hg =>
    not_isExpandedBy hexp (hperm.mem_iff.mpr hg) hk
  have hexpG : ∀ g ∈ nonNumbers gs, ¬g.IsExpandedBy k := by
    rintro g hg ⟨ts, y, rfl, hy⟩
    exact hexp' _ ((mem_leftover_iff hgss hown rfl).mpr hg) ⟨ts, y, rfl, hy⟩
  obtain ⟨hcovers, hraised⟩ := stays_raised hgss hhss hown hk hexpG hexp' hrest
  have hstays : ∀ β ∈ basesOf hs, Stays hs β := fun β hβ => (hraised β (hcovers.bases β hβ)).1
  -- Both sides are put together from the same rational and the same factors.
  have hcs : coefficientOf hs = powerRational k b := by
    rw [hrational, prod_raisedRational hgss hown hk hexpG hexp', powerRational, hcoef,
      (hperm.map _).prod_eq]
  have hrests : (basesOf hs).flatMap (leftover hs) ~ powerRest k b := by
    have hms := forall₂_mergedPower_iff.mpr fun β hβ => (hstays β hβ).spec.1
    refine (contents_merged hhss.areFactors (Covers.self hhss.areFactors) hms).2.symm.trans ?_
    refine (contents_merged hhss.areFactors hcovers hms).2.trans ?_
    rw [List.flatMap_congr fun β hβ => (hraised β hβ).2, ← List.flatMap_assoc]
    exact hperm.symm.flatMap_right _
  have hbs := isRaised_of_mem hstable hexp
  rw [power_eq_distribute hstable hb0 hexp, product_of_stays hB ?_ (hhs ▸ hstays), hhs, hcs,
    distribute_perm ?_ hrests]
  · exact fun g hg => ((factors_powerRest hstable hbs).1 g (hrests.mem_iff.mp hg)).1.stable.settled
  · rw [hhs, hcs]
    exact powerRational_ne_zero hstable hb0 fun f hf => (hbs f hf).ne_zero

/-! ## Powers of powers of stable expressions -/

/-- What a factor comes to, be it expanded to a plain product or not: a stable expression other than
zero, and what is left of it has the base of the factor or bases that are neither numbers nor
products. -/
structure IsRaisedPlainly (k : ℤ) (f : Expr) : Prop where
  power_eq : power f (num k) = .ok (raised k f)
  stable : (raised k f).IsStable
  ne_zero : raisedRational k f ≠ 0
  rest : HasOneOf f.base (raisedRest k f) ∨ ∀ g ∈ raisedRest k f, isEvaluable g.base = false

/-- Factors that are expanded to plain products at most are raised plainly. -/
theorem isRaisedPlainly (hf : IsFactor f) (hk : k ≠ 0)
    (hplain : ∀ fs y, f = .power (.product fs) (num y) → (y * k).den = 1 → ArePlain fs) :
    IsRaisedPlainly k f := by
  by_cases hexp : f.IsExpandedBy k
  · obtain ⟨fs, y, rfl, hy⟩ := hexp
    have hfs := hplain fs y rfl hy
    have hint : y * k = ((y * k).num : ℤ) := ((Rat.den_eq_one_iff _).mp hy).symm
    obtain ⟨hpow, heq⟩ := raised_plain hf hfs hk hint
    have hstable : (Expr.product fs).IsStable := hf.stable.child (by simp)
    refine ⟨heq, hpow.stable, hpow.coefficient_ne_zero hstable nofun, .inr fun g hg => ?_⟩
    obtain ⟨-, s, hs, -, hsb⟩ :=
      (factors_powerRest hstable hpow.raised).1 g (hpow.rest.mem_iff.mp hg)
    obtain ⟨hn, hp⟩ := hfs.bases s hs
    rw [hsb, isEvaluable, hn, hp]
    rfl
  · have hraised := isRaised_of_raises hf (raises_of_factor hf fun _ => hexp)
    exact ⟨hraised.power_eq, hraised.stable, hraised.ne_zero, .inl hraised.rest⟩

/-- The powers of numbers and products that are left have different bases. -/
theorem haveOwnBases_powerRest (h : a.IsStable)
    (hr : ∀ f ∈ nonNumbers a.factors, IsRaisedPlainly k f) :
    HaveOwnBases (powerRest k a) := by
  rw [HaveOwnBases, powerRest, List.filter_flatMap]
  refine (bases_of_isStable h).1.sublist (sublist_flatMap fun f hf => ?_)
  rcases (hr f hf).rest with (hnil | ⟨g, hg, hfactor, hgb⟩) | hplain
  · rw [hnil]
    exact .inl rfl
  · rw [hg]
    cases he : isEvaluable g.base with
    | true => exact .inr ⟨g, List.filter_cons_of_pos he, hfactor, hgb⟩
    | false => exact .inl (List.filter_cons_of_neg (by simp [he]))
  · refine .inl (List.filter_eq_nil_iff.mpr fun g hg => ?_)
    rw [hplain g hg]
    exact Bool.false_ne_true

/-- A factor that the power to `d` does not expand is not expanded by that to `d * k` either, if the
power to `k` of what comes of the power to `d` expands nothing. -/
theorem not_isExpandedBy_mul (h : a.IsStable) (hd : d ≠ 0) (hk : k ≠ 0) (hgss : AreStable gs)
    (hgs : nonNumbers gs = powerRest d a) (hown : HaveOwnBases (nonNumbers gs))
    (hperm : nonNumbers b.factors ~ (basesOf gs).flatMap (leftover gs)) (hexp : ¬b.ExpandsAt k)
    (hf : f ∈ nonNumbers a.factors) (hed : ¬f.IsExpandedBy d) : ¬f.IsExpandedBy (d * k) := by
  intro hek
  have hsym : f.base.isNum = true → f.exponent.isNum = false := fun hn => by
    obtain ⟨fs, y, rfl, -⟩ := hek
    cases hn
  -- What the factor comes to is a factor of the power to `d`, and expanded by `k`.
  obtain ⟨g, hgp, hg, hgb, hge⟩ := exists_raised_factor (isFactor_of_mem h f hf) hd hed hsym
  have hgk := (isExpandedBy_mul (isFactor_of_mem h f hf) hd hg hgb hge).mpr hek
  have hmem : g ∈ nonNumbers gs :=
    hgs ▸
      List.mem_flatMap.mpr ⟨f, hf, (rest_of_factor hg hgb hge hgp).2.1 ▸ List.mem_singleton.mpr rfl⟩
  refine not_isExpandedBy hexp (hperm.mem_iff.mpr ((mem_leftover_iff hgss hown ?_).mpr hmem)) hk hgk
  obtain ⟨fs, y, rfl, -⟩ := hgk
  rfl

/-- Factors can be raised twice, if nothing but plain products are expanded by the first power. -/
theorem raisedTwice_of_factor (hf : IsFactor f) (hd : d ≠ 0) (hk : k ≠ 0)
    (hplain : ∀ fs y, f = .power (.product fs) (num y) → (y * d).den = 1 → ArePlain fs)
    (hexp : ¬f.IsExpandedBy d → ¬f.IsExpandedBy (d * k)) :
    RaisedTwice d k f ∧ IsRaisedPlainly (d * k) f := by
  by_cases hed : f.IsExpandedBy d
  · obtain ⟨fs, y, rfl, hy⟩ := hed
    have hfs := hplain fs y rfl hy
    have hint : y * d = ((y * d).num : ℤ) := ((Rat.den_eq_one_iff _).mp hy).symm
    refine ⟨raisedTwice_plain hf hfs hd hk hint, isRaisedPlainly hf (mul_ne_zero hd hk) ?_⟩
    rintro gs z hgs -
    obtain ⟨rfl, -⟩ := Expr.product.inj (Expr.power.inj hgs).1
    exact hfs
  · have hek := hexp hed
    refine ⟨?_, isRaisedPlainly hf (mul_ne_zero hd hk) fun fs y hfs hy =>
      absurd ⟨fs, y, hfs, hy⟩ hek⟩
    rcases root_or_symbolic hf with ⟨q, x, rfl⟩ | hsym
    · exact raisedTwice_root hf d k
    · exact raisedTwice_symbolic hf hd hk hsym hed hek

/-- A power is raised by raising the expression to the product of the exponents, if nothing but
plain products are expanded by it and nothing by the second. -/
theorem power_power (h : a.IsStable) (h0 : a ≠ num 0) (hd : d ≠ 0) (hplain : a.ExpandsPlainly d)
    (hb : power a (num d) = .ok b) (hsum : b.isSum = false) (hexp : ¬b.ExpandsAt k) :
    b.IsStable ∧ b ≠ num 0 ∧ power b (num k) = power a (num (d * k : ℤ)) := by
  have hfactor := isFactor_of_mem h
  have hr : ∀ f ∈ nonNumbers a.factors, IsRaisedPlainly d f := fun f hf =>
    isRaisedPlainly (hfactor f hf) hd fun fs y hfs =>
      hplain fs y (hfs ▸ Expr.mem_of_mem_nonNumbers hf)
  have hpowers := fun f hf => And.intro (hr f hf).power_eq (hr f hf).stable
  have hA := (forall₂_raised_factors h h0 hpowers).2
  obtain ⟨hc, hrest⟩ := contents_raised h h0 d
  have hc0 := hc.trans_ne (powerRational_ne_zero h h0 fun f hf => (hr f hf).ne_zero)
  have hown : HaveOwnBases (nonNumbers ((a.factors.map (raised d)).flatMap Expr.factors)) :=
    hrest ▸ haveOwnBases_powerRest h hr
  rw [power_eq_product_of_stable h h0 hd hpowers] at hb
  have hgss := AreStable.flatMap hA
  obtain ⟨hbs, hb0, -, hperm⟩ := isStable_of_stays hA rfl hc0 (stays_of_own hgss hown) hb hsum
  refine ⟨hbs, hb0, ?_⟩
  by_cases hk : k = 0
  · rw [hk, mul_zero, Int.cast_zero, power_num_zero hb0, power_num_zero h0]
  -- Each factor is raised twice, and the product of the powers is `b` raised to `k`.
  have htwice : ∀ f ∈ nonNumbers a.factors, RaisedTwice d k f ∧ IsRaisedPlainly (d * k) f :=
    fun f hf =>
    raisedTwice_of_factor (hfactor f hf) hd hk
      (fun fs y hfs => hplain fs y (hfs ▸ Expr.mem_of_mem_nonNumbers hf))
      (not_isExpandedBy_mul h hd hk hgss hrest hown hperm hexp hf)
  obtain ⟨hrest', hrational⟩ := powerRest_twice fun f hf => (htwice f hf).1
  obtain ⟨hc', hn'⟩ := contents_raised h h0 (d * k)
  have hpowers' := fun f hf => And.intro (htwice f hf).2.power_eq (htwice f hf).2.stable
  rw [power_eq_product_of_stable h h0 (mul_ne_zero hd hk) hpowers']
  refine power_product_eq hA (forall₂_raised_factors h h0 hpowers').2 rfl rfl hc0
    hown hb hsum hk hexp ?_ ?_
  · rw [hn', hrest]
    exact hrest'
  · rw [hc', hc, hrest, hrational]

/-- Powers of a stable expression that expand plain products alone multiply to the power to the sum
of the exponents exactly if the powers of what these are expanded by do not clash. -/
theorem product_powers_expanded_iff {m n : ℤ}
    {s u : Expr} (h : a.IsStable) (h0 : a ≠ num 0) (hd : d ≠ 0) (hplain : a.ExpandsPlainly d)
    (hb : power a (num d) = .ok b) (hsum : b.isSum = false) (hem : ¬b.ExpandsAt m)
    (hen : ¬b.ExpandsAt n) (hes : ¬b.ExpandsAt (m + n)) (hp : power a (num (d * m : ℤ)) = .ok p)
    (hu : power a (num (d * n : ℤ)) = .ok u) (hs : power a (num (d * m + d * n : ℤ)) = .ok s) :
    product [p, u] = .ok s ↔ ¬b.PowersClash m n := by
  obtain ⟨hbs, hb0, hpm⟩ := power_power h h0 hd hplain hb hsum hem
  have hpn := (power_power h h0 hd hplain hb hsum hen).2.2
  have hps := (power_power h h0 hd hplain hb hsum hes).2.2
  rw [mul_add] at hps
  exact product_powers_iff hbs hb0 hem hen hes (hpm.trans hp) (hpn.trans hu) (hps.trans hs)

end Canonical
end StackAlgebra
