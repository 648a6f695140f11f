import StackAlgebra.Proofs.NormalForm.RootMerge
import StackAlgebra.Proofs.NormalForm.Associativity

/-!
# Whole powers of stable expressions

A whole power of a stable expression is put together from those of its factors. The exponent of a
factor is multiplied (`power_int_eq`). The factor stays one with its base, but for roots of numbers,
of which a rational may be left alone, and for powers of products that come to a whole exponent and
are expanded (`ExpandsAt`). Where nothing is expanded the bases stay different, and the power is
what is left of the factors with the rational in front (`power_eq_distribute`).
-/

namespace StackAlgebra

namespace Expr

/-- The factor is a power of a product that comes to a whole exponent if it is raised to `k`. -/
def IsExpandedBy (f : Expr) (k : ℤ) : Prop :=
  ∃ fs y, f = power (product fs) (num y) ∧ (y * k).den = 1

/-- The power to `k` expands a power of a product among the factors. -/
def ExpandsAt (a : Expr) (k : ℤ) : Prop :=
  k ≠ 0 ∧ ∃ f ∈ a.factors, f.IsExpandedBy k

end Expr

namespace Canonical

open StackAlgebra.Expr
  (num nonNumbers isNum coefficientOf coordinates HaveDistinctBases HasDistinctBases)
open scoped List

variable {a b e f g m p r : Expr} {fs ms : List Expr} {c q x y : Rat} {k : ℤ}

/-! ## Powers of factors -/

/-- The coordinates of a multiple of a number. -/
theorem coordinates_num_mul (c q : Rat) : (num (c * q)).coordinates = c • (num q).coordinates := by
  funext l
  rw [Pi.smul_apply, coordinates_num, coordinates_num]
  split_ifs <;> simp

/-- What is a number with these coordinates. -/
theorem eq_num_mul (hx : e.IsSettled) (h : e.coordinates = c • (num q).coordinates) :
    e = num (c * q) :=
  eq_of_coordinates_eq hx (Expr.settled_num _) (h.trans (coordinates_num_mul c q).symm)

/-- What has a number as a multiple is a number. -/
theorem eq_num_of_multiple (hk : k ≠ 0) (he : e.IsSettled)
    (h : (num q).coordinates = (k : Rat) • e.coordinates) :
    e = num ((k : Rat)⁻¹ * q) := by
  refine eq_num_mul he ?_
  rw [h, smul_smul, inv_mul_cancel₀ (Int.cast_ne_zero.mpr hk), one_smul]

/-- A whole power of a factor is a power of the base to the multiple of the exponent. -/
theorem power_int_eq (hf : IsFactor f) (hk : k ≠ 0) : ∃ x : Expr, x.IsStable ∧
    x.coordinates = (k : Rat) • f.exponent.coordinates ∧ power f (num k) = power f.base x := by
  have hzero : (num (k : Rat)).isZero = false := by simpa [Expr.isZero] using hk
  by_cases h1 : k = 1
  · subst h1
    refine ⟨f.exponent, (stable_splitPower hf.stable).2, by rw [Int.cast_one, one_smul], ?_⟩
    rw [power_splitPower hf.stable.settled, Int.cast_one, power_num_one]
  have hone : (num (k : Rat)).isOne = false := by simpa [Expr.isOne] using h1
  cases f with
  | power b e =>
    have he : e.IsStable := hf.stable.child (by simp)
    obtain ⟨x, hx, hxs, hxc⟩ := hasCoordinates_product_num he k
    have hx' : product [e, num k] = .ok x :=
      product_perm (by simpa using ⟨Expr.settled_num _, he.settled⟩) (.swap _ _ _) hx
    refine ⟨x, hxs, hxc, ?_⟩
    rw [power_eq (.power b e), if_neg (by simp [hzero]), if_neg (by simp [hone])]
    simp only [hx']
    rfl
  | _ =>
    refine ⟨num k, Expr.isStable_num _, ?_, rfl⟩
    rw [← mul_one (k : Rat), coordinates_num_mul, mul_one]
    rfl

/-- What the factor comes to in the power, and one where the power is an error. -/
def raised (k : ℤ) (f : Expr) : Expr :=
  match power f (num k) with
  | .ok m => m
  | .error _ => num 1

/-- What is left of the factor in the power. -/
def raisedRest (k : ℤ) (f : Expr) : List Expr :=
  nonNumbers (raised k f).factors

/-- The rational that the factor brings to the power. -/
def raisedRational (k : ℤ) (f : Expr) : Rat :=
  coefficientOf (raised k f).factors

/-- What the factor comes to is the result of the power, if there is one. -/
theorem raised_eq (h : power f (num k) = .ok m) : raised k f = m := by
  rw [raised, h]

/-- The ways in which a factor comes to its power to `k`, if nothing is expanded: it disappears with
the exponent zero, it stays a factor with its base, or it is a root of a number. -/
inductive Raises (k : ℤ) (f : Expr) : Prop where
  | zero (hk : k = 0) (h : power f (num k) = .ok (num 1))
  | factor (hk : k ≠ 0) (g : Expr) (hg : IsFactor g) (hb : g.base = f.base)
      (he : g.exponent.coordinates = (k : Rat) • f.exponent.coordinates)
      (h : power f (num k) = .ok g)
  | root (q x : Rat) (hf : f = .power (num q) (num x))
      (h : power f (num k) = rationalPower q (x * k))

/-- A factor is a root of a number, or not both its base and its exponent are numbers. -/
theorem root_or_symbolic (hf : IsFactor f) :
    (∃ q x, f = .power (num q) (num x)) ∨ (f.base.isNum = true → f.exponent.isNum = false) := by
  by_cases h : f.base.isNum = true ∧ f.exponent.isNum = true
  · exact .inl (isNum_exponent hf h.1 h.2)
  · exact .inr fun hb => Bool.eq_false_iff.mpr fun he => h ⟨hb, he⟩

/-- The power of a root of a number is a power of the number. -/
theorem power_root (hf : IsFactor (.power (num q) (num x))) (k : ℤ) :
    power (.power (num q) (num x)) (num k) = rationalPower q (x * k) := by
  by_cases hk : k = 0
  · subst hk
    rw [Int.cast_zero, power_num_zero (by simp), mul_zero]
    simp [rationalPower]
  obtain ⟨e, hes, hec, hpow⟩ := power_int_eq hf hk
  obtain ⟨h0, h1⟩ := base_ne_of_root hf.stable.settled
  have he : e = num (x * k) := by
    rw [mul_comm]
    exact eq_num_mul hes.settled hec
  rw [hpow, he]
  exact power_num_num h0 h1 _

/-- The power of a factor that is expanded is one of the product. -/
theorem power_expanded (hf : IsFactor (.power (.product fs) (num y))) {i : ℤ} (hk : k ≠ 0)
    (hi : y * k = i) :
    power (.power (.product fs) (num y)) (num k) = power (.product fs) (num i) := by
  obtain ⟨x, hxs, hxc, hpow⟩ := power_int_eq hf hk
  have hx : x = num (k * y) := eq_num_mul hxs.settled hxc
  rw [hpow, hx, mul_comm, hi]
  rfl

/-- A factor whose base is a product is a power of it. -/
theorem exists_power_of_product (hf : IsFactor f) (hprod : f.base.isProduct = true)
    (he : f.exponent = num y) :
    ∃ fs, f = .power (.product fs) (num y) := by
  cases f with
  | power b e =>
    cases b with
    | product fs => exact ⟨fs, congrArg _ he⟩
    | _ => cases hprod
  | product fs => cases hf.not_isProduct
  | _ => cases hprod

/-- A factor that is no root of a number stays a factor where it is raised to a whole power and
nothing is expanded. -/
theorem exists_raised_factor (hf : IsFactor f) (hk : k ≠ 0) (hexp : ¬f.IsExpandedBy k)
    (hsym : f.base.isNum = true → f.exponent.isNum = false) :
    ∃ g, power f (num k) = .ok g ∧ IsFactor g ∧
      g.base = f.base ∧ g.exponent.coordinates = (k : Rat) • f.exponent.coordinates := by
  obtain ⟨x, hxs, hxc, hpow⟩ := power_int_eq hf hk
  have hk' : (k : Rat) ≠ 0 := Int.cast_ne_zero.mpr hk
  -- The exponent is a number only if that of the factor is the part of it.
  have hnum : ∀ z, x = num z → f.exponent = num ((k : Rat)⁻¹ * z) := by
    rintro z rfl
    exact eq_num_of_multiple hk hf.settled_exponent hxc
  have hzero : x.isZero = false := by
    rw [← Bool.not_eq_true, Expr.isZero_iff]
    intro hx
    have hzero := hf.exponent_ne_zero
    rw [hnum 0 hx, mul_zero] at hzero
    cases hzero
  have hbase := hf.isBase
  -- So a product is raised to a whole exponent only where the factor is expanded.
  have hx : IsBase f.base x := by
    refine ⟨hbase.stable, hbase.not_isPower, hbase.not_isOne,
      fun hint => Bool.eq_false_iff.mpr fun hprod => ?_⟩
    obtain ⟨z, rfl⟩ : ∃ z, x = num z := by
      cases x with
      | num z => exact ⟨z, rfl⟩
      | _ => cases hint
    have hz : z.den = 1 := by simpa [Expr.isInteger] using hint
    obtain ⟨fs, hfs⟩ := exists_power_of_product hf hprod (hnum z rfl)
    refine hexp ⟨fs, _, hfs, ?_⟩
    rwa [mul_comm, mul_inv_cancel_left₀ hk']
  obtain ⟨g, hg, hfactor, hgb, rfl⟩ := hx.exists_factor hxs hzero fun hb => by
    rw [← Bool.not_eq_true]
    intro hxn
    obtain ⟨z, rfl⟩ := Expr.exists_eq_num hxn
    have hexponent := hsym hb
    rw [hnum z rfl] at hexponent
    cases hexponent
  exact ⟨g, hpow.trans hg, hfactor, hgb, hxc⟩

/-- A factor comes to its power in one of the ways named, unless it is expanded. -/
theorem raises_of_factor (hf : IsFactor f) (hexp : k ≠ 0 → ¬f.IsExpandedBy k) : Raises k f := by
  by_cases hk : k = 0
  · subst hk
    refine .zero rfl (power_num_zero ?_)
    rintro rfl
    cases hf.not_isNum
  · rcases root_or_symbolic hf with ⟨q, x, rfl⟩ | hsym
    · exact .root q x rfl (power_root hf k)
    · obtain ⟨g, h, hg, hb, he⟩ := exists_raised_factor hf hk (hexp hk) hsym
      exact .factor hk g hg hb he h

/-- The exponents of a root of a number are real, and so are its multiples. -/
theorem isReal_root (h : (Expr.power (num q) (num x)).IsSettled) : IsReal q x := by
  rintro ⟨hneg, heven⟩
  rcases (Expr.settled_power_iff.mp h).1.real q x rfl rfl with hpos | hodd
  · exact hpos.not_gt hneg
  · omega

/-- The power of a root of a number is evaluated to a rational and a root. -/
theorem exists_leaves_root (hf : IsFactor (.power (num q) (num x))) (k : ℤ) :
    ∃ f v, LeavesRoot q (x * k) f v ∧ (HasRoot q (x * k) → f = 0 ∧ IsRationalPower q (x * k) v) ∧
    ((x * k).den = 1 ∨ ¬HasRoot q (x * k) → f = x * k - (x * k).floor ∧ v = q ^ (x * k).floor) :=
  exists_leaves (base_ne_of_root hf.stable.settled).1 ((isReal_root hf.stable.settled).mul_int k)

/-- What a factor comes to: a stable power, which is a rational and at most one factor with the same
base. -/
structure IsRaised (k : ℤ) (f : Expr) : Prop where
  power_eq : power f (num k) = .ok (raised k f)
  stable : (raised k f).IsStable
  ne_zero : raisedRational k f ≠ 0
  rest : HasOneOf f.base (raisedRest k f)

/-- A factor that is not expanded is a rational and at most one factor with its base after it is
raised. -/
theorem isRaised_of_raises (hf : IsFactor f) (h : Raises k f) : IsRaised k f := by
  cases h with
  | zero hk h =>
    have hm := raised_eq h
    refine ⟨hm ▸ h, hm ▸ Expr.isStable_num 1, ?_, .inl ?_⟩
    · rw [raisedRational, hm]
      exact (mul_one (1 : Rat)).trans_ne one_ne_zero
    · rw [raisedRest, hm]
      rfl
  | factor hk g hg hb he h =>
    have hm := raised_eq h
    refine ⟨hm ▸ h, hm ▸ hg.stable, ?_, .inr ⟨g, ?_, hg, hb⟩⟩
    · rw [raisedRational, hm, hg.coefficientOf_factors]
      exact one_ne_zero
    · rw [raisedRest, hm, hg.nonNumbers_factors]
  | root q x hq h =>
    subst hq
    obtain ⟨z, v, ⟨⟨m, hm, hms, hc, hr⟩, hv, hz⟩, -, -⟩ := exists_leaves_root hf k
    have hpow := h.trans hm
    have hrm := raised_eq hpow
    refine ⟨hrm ▸ hpow, hrm ▸ hms, by rw [raisedRational, hrm, hc]; exact hv, ?_⟩
    rw [raisedRest, hrm, hr, rootOf]
    split_ifs with h0
    · exact .inl rfl
    · exact .inr ⟨_, rfl, ⟨isStable_root (hz.resolve_left h0), rfl, rfl⟩, rfl⟩

/-! ## Powers of stable expressions -/

/-- Factors that no power to `k` expands. -/
theorem not_isExpandedBy (hexp : ¬a.ExpandsAt k) (hf : f ∈ nonNumbers a.factors) (hk : k ≠ 0) :
    ¬f.IsExpandedBy k :=
  fun h => hexp ⟨hk, f, Expr.mem_of_mem_nonNumbers hf, h⟩

/-- The factors of a stable expression come to their powers in one of the ways named, if none is
expanded. -/
theorem raises_of_mem (h : a.IsStable) (hexp : ¬a.ExpandsAt k) :
    ∀ f ∈ nonNumbers a.factors, Raises k f :=
  fun f hf => raises_of_factor (isFactor_of_mem h f hf) (not_isExpandedBy hexp hf)

/-- The factors of a stable expression come to stable powers, if none is expanded. -/
theorem isRaised_of_mem (h : a.IsStable) (hexp : ¬a.ExpandsAt k) :
    ∀ f ∈ nonNumbers a.factors, IsRaised k f :=
  fun f hf => isRaised_of_raises (isFactor_of_mem h f hf) (raises_of_mem h hexp f hf)

/-- The powers of factors are those of the numbers among them and those of the others. -/
theorem factors_raised (h0 : ∀ q, num q ∈ fs → q ≠ 0) :
    coefficientOf ((fs.map (raised k)).flatMap Expr.factors) =
        coefficientOf fs ^ k * ((nonNumbers fs).map (raisedRational k)).prod ∧
      nonNumbers ((fs.map (raised k)).flatMap Expr.factors) =
        (nonNumbers fs).flatMap (raisedRest k) := by
  induction fs with
  | nil => exact ⟨by simp [coefficientOf, nonNumbers], rfl⟩
  | cons f fs ih =>
    obtain ⟨hc, hr⟩ := ih fun q hq => h0 q (List.mem_cons_of_mem _ hq)
    rw [List.map_cons, List.flatMap_cons, coefficientOf_append, Expr.nonNumbers_append, hc, hr]
    cases hn : f.isNum with
    | true =>
      obtain ⟨q, rfl⟩ := Expr.exists_eq_num hn
      have hm : raised k (num q) = num (q ^ k) :=
        raised_eq (power_num_int (absurd · (h0 q List.mem_cons_self)))
      have hcoef : coefficientOf (num (q ^ k)).factors = q ^ k := mul_one _
      rw [hm, hcoef, Expr.nonNumbers_num_cons, coefficientOf, mul_zpow, mul_assoc]
      exact ⟨rfl, rfl⟩
    | false =>
      rw [Expr.nonNumbers_cons hn, coefficientOf_cons hn, List.map_cons, List.prod_cons,
        List.flatMap_cons]
      exact ⟨mul_left_comm _ _ _, rfl⟩

/-- The powers of all factors exist where those exist of the factors that are no numbers. -/
theorem forall₂_raised (h0 : ∀ q, num q ∈ fs → q ≠ 0)
    (h : ∀ f ∈ nonNumbers fs, power f (num k) = .ok (raised k f)) :
    List.Forall₂ (fun f m => power f (num k) = .ok m) fs (fs.map (raised k)) := by
  rw [List.forall₂_map_right_iff, List.forall₂_same]
  intro f hf
  cases hn : f.isNum with
  | true =>
    obtain ⟨q, rfl⟩ := Expr.exists_eq_num hn
    have hpow := power_num_int (k := k) (absurd · (h0 q hf))
    rw [raised_eq hpow, hpow]
  | false => exact h f (List.mem_filter.mpr ⟨hf, by simp [hn]⟩)

/-- The powers of all factors of a stable expression other than zero. -/
theorem forall₂_raised_factors (h : a.IsStable) (h0 : a ≠ num 0)
    (hr : ∀ f ∈ nonNumbers a.factors, power f (num k) = .ok (raised k f) ∧ (raised k f).IsStable) :
    List.Forall₂ (fun f m => power f (num k) = .ok m) a.factors (a.factors.map (raised k)) ∧
      ∀ m ∈ a.factors.map (raised k), m.IsStable := by
  have hnum := num_ne_zero_of_mem_factors h.settled h0
  refine ⟨forall₂_raised hnum fun f hf => (hr f hf).1, fun m hm => ?_⟩
  obtain ⟨f, hf, rfl⟩ := List.mem_map.mp hm
  cases hn : f.isNum with
  | true =>
    obtain ⟨q, rfl⟩ := Expr.exists_eq_num hn
    rw [raised_eq (power_num_int (absurd · (hnum q hf)))]
    exact Expr.isStable_num _
  | false => exact (hr f (List.mem_filter.mpr ⟨hf, by simp [hn]⟩)).2

/-- The rational in front of the power. -/
def powerRational (k : ℤ) (a : Expr) : Rat :=
  coefficientOf a.factors ^ k * ((nonNumbers a.factors).map (raisedRational k)).prod

/-- What is left of the factors in the power. -/
def powerRest (k : ℤ) (a : Expr) : List Expr :=
  (nonNumbers a.factors).flatMap (raisedRest k)

/-- What all factors come to is the rational in front of the power and what is left of them. -/
theorem contents_raised (h : a.IsStable) (h0 : a ≠ num 0) (k : ℤ) :
    coefficientOf ((a.factors.map (raised k)).flatMap Expr.factors) = powerRational k a ∧
      nonNumbers ((a.factors.map (raised k)).flatMap Expr.factors) = powerRest k a :=
  factors_raised (num_ne_zero_of_mem_factors h.settled h0)

/-- The rational in front of a power is not zero. -/
theorem powerRational_ne_zero (h : a.IsStable) (h0 : a ≠ num 0)
    (hr : ∀ f ∈ nonNumbers a.factors, raisedRational k f ≠ 0) : powerRational k a ≠ 0 := by
  refine mul_ne_zero (zpow_ne_zero _ (coefficient_ne_zero h.settled h0))
    (List.prod_ne_zero fun hz => ?_)
  obtain ⟨f, hf, hfz⟩ := List.mem_map.mp hz
  exact hr f hf hfz

/-- The bases of a stable expression are settled and different. -/
theorem bases_of_isStable (h : a.IsStable) : ((nonNumbers a.factors).map Expr.base).Nodup ∧
    ∀ f ∈ nonNumbers a.factors, f.base.IsSettled :=
  ⟨nodup_of_areDistinct (haveDistinctBases_factors h), fun f hf =>
    (isFactor_of_mem h f hf).settled_base⟩

/-- Each base belongs to one factor of a stable expression. -/
theorem eq_of_base_eq (h : a.IsStable) (hf : f ∈ nonNumbers a.factors)
    (hg : g ∈ nonNumbers a.factors) (hb : f.base = g.base) : f = g :=
  List.inj_on_of_nodup_map (bases_of_isStable h).1 hf hg hb

/-- What is left of the factors are factors, and their bases are different. -/
theorem factors_powerRest (h : a.IsStable) (hr : ∀ f ∈ nonNumbers a.factors, IsRaised k f) :
    (∀ g ∈ powerRest k a, IsFactor g ∧ ∃ f ∈ nonNumbers a.factors,
      raisedRest k f = [g] ∧ g.base = f.base) ∧ HaveDistinctBases (powerRest k a) := by
  obtain ⟨hnodup, hsettled⟩ := bases_of_isStable h
  have hone : ∀ f ∈ nonNumbers a.factors, HasOneOf f.base (raisedRest k f) :=
    fun f hf => (hr f hf).rest
  exact ⟨isFactor_flatMap hone, haveDistinctBases_flatMap hnodup hsettled hone⟩

/-- The product of what the factors come to is put together from what is left of them. -/
theorem product_raised (h : a.IsStable) (h0 : a ≠ num 0)
    (hr : ∀ f ∈ nonNumbers a.factors, IsRaised k f) :
    product (a.factors.map (raised k)) = distribute (powerRational k a) (powerRest k a) := by
  have hraised := forall₂_raised_factors h h0 fun f hf => ⟨(hr f hf).power_eq, (hr f hf).stable⟩
  have hsettled : ∀ m ∈ a.factors.map (raised k), m.IsSettled := fun m hm =>
    (hraised.2 m hm).settled
  have hopen := opened_perm_factors hsettled
  obtain ⟨hc, hn⟩ := contents_raised h h0 k
  have hnon : nonNumbers (opened (a.factors.map (raised k))) ~ powerRest k a := hn ▸ hopen.filter _
  obtain ⟨hfactors, hdistinct⟩ := factors_powerRest h hr
  -- The bases of what is left are different, so that nothing is merged.
  have hd : HaveDistinctBases (opened (a.factors.map (raised k))) := by
    refine hdistinct.perm ?_
    rw [Expr.nonNumbers_of_not_isNum fun g hg => (hfactors g hg).1.not_isNum]
    exact hnon.symm.map _
  rw [product_of_distinct hsettled ?_ hd, Expr.coefficientOf_perm hopen, hc,
    distribute_perm ?_ hnon]
  · exact fun g hg => (hfactors g (hnon.mem_iff.mp hg)).1.stable.settled
  · rw [Expr.coefficientOf_perm hopen, hc]
    exact powerRational_ne_zero h h0 fun f hf => (hr f hf).ne_zero

/-- A stable expression is the product of its factors. -/
theorem product_factors (h : a.IsStable) : product a.factors = .ok a := by
  have hself : a.factors.flatMap Expr.factors = a.factors :=
    Expr.flatMap_factors h.settled.not_isProduct_factors
  have hflat : [a].flatMap Expr.factors = a.factors := List.append_nil _
  refine product_congr_factors (List.forall_mem_singleton.mpr h.settled)
    (fun f hf => (stable_factors h f hf).settled) ?_ ?_ (product_singleton h)
  · rw [hself, hflat]
  · rw [hself, hflat]

/-- A whole power other than the zeroth is the product of the powers of the factors, where these are
stable. -/
theorem power_eq_product_of_stable (h : a.IsStable) (h0 : a ≠ num 0) (hk : k ≠ 0)
    (hr : ∀ f ∈ nonNumbers a.factors, power f (num k) = .ok (raised k f) ∧ (raised k f).IsStable) :
    power a (num k) = product (a.factors.map (raised k)) := by
  by_cases hk1 : k = 1
  · subst hk1
    have hself : a.factors.map (raised 1) = a.factors := by
      refine (List.map_congr_left fun f _ => ?_).trans (List.map_id _)
      exact raised_eq (by rw [Int.cast_one]; exact power_num_one f)
    rw [hself, Int.cast_one, power_num_one, product_factors h]
  · obtain ⟨hpowers, hstable⟩ := forall₂_raised_factors h h0 hr
    exact power_eq_product (by simpa [Expr.isZero] using hk) (by simpa [Expr.isOne] using hk1)
      (by simp [Expr.isInteger]) hpowers hstable

/-- A whole power is the product of the powers of the factors, where these stay what they come
to. -/
theorem power_eq_product_raised (h : a.IsStable) (h0 : a ≠ num 0)
    (hr : ∀ f ∈ nonNumbers a.factors, IsRaised k f) :
    power a (num k) = product (a.factors.map (raised k)) := by
  by_cases hk : k = 0
  · subst hk
    -- All factors disappear, and both sides are one.
    have hone : ∀ f ∈ nonNumbers a.factors, raised 0 f = num 1 := fun f hf => by
      refine raised_eq (power_num_zero ?_)
      rintro rfl
      exact absurd (Expr.isNum_of_mem_nonNumbers hf) (by simp [isNum])
    have hprod : ((nonNumbers a.factors).map (raisedRational 0)).prod = 1 := by
      refine List.prod_eq_one fun c hc => ?_
      obtain ⟨f, hf, rfl⟩ := List.mem_map.mp hc
      rw [raisedRational, hone f hf]
      exact mul_one 1
    have hnil : (nonNumbers a.factors).flatMap (raisedRest 0) = [] := by
      refine List.flatMap_eq_nil_iff.mpr fun f hf => ?_
      rw [raisedRest, hone f hf]
      rfl
    rw [product_raised h h0 hr, powerRational, powerRest, hprod, hnil, zpow_zero, mul_one]
    exact power_num_zero h0
  · exact power_eq_product_of_stable h h0 hk fun f hf => ⟨(hr f hf).power_eq, (hr f hf).stable⟩

/-- A whole power that expands nothing is put together from what is left of the factors. -/
theorem power_eq_distribute (h : a.IsStable) (h0 : a ≠ num 0) (hexp : ¬a.ExpandsAt k) :
    power a (num k) = distribute (powerRational k a) (powerRest k a) := by
  have hr := isRaised_of_mem h hexp
  rw [power_eq_product_raised h h0 hr, product_raised h h0 hr]

/-- Results of powers are what the factors come to. -/
theorem eq_map_raised (h : List.Forall₂ (fun f m => power f (num k) = .ok m) fs ms) :
    ms = fs.map (raised k) ∧ ∀ f ∈ fs, power f (num k) = .ok (raised k f) := by
  induction h with
  | nil => exact ⟨rfl, List.forall_mem_nil _⟩
  | cons hm _ ih =>
    rw [List.map_cons, raised_eq hm, ← ih.1]
    exact ⟨rfl, List.forall_mem_cons.mpr ⟨by rw [raised_eq hm, hm], ih.2⟩⟩

/-- The factors can be raised if the expression can. The power is the product of what they come to,
or what the one factor comes to. -/
theorem raised_of_power (h : a.IsStable) (hk : k ≠ 0) (hr : power a (num k) = .ok r) :
    (∀ f ∈ nonNumbers a.factors, power f (num k) = .ok (raised k f)) ∧
      (product (a.factors.map (raised k)) = .ok r ∨ a.factors.map (raised k) = [r]) := by
  by_cases hk1 : k = 1
  · subst hk1
    have hself : ∀ f : Expr, power f (num (1 : ℤ)) = .ok f := fun f => by
      rw [Int.cast_one, power_num_one]
    have hmap : a.factors.map (raised 1) = a.factors :=
      (List.map_congr_left fun f _ => raised_eq (hself f)).trans (List.map_id _)
    rw [hself] at hr
    refine ⟨fun f _ => by rw [raised_eq (hself f), hself], .inl ?_⟩
    rw [hmap, product_factors h, hr]
  cases hprod : a.isProduct with
  | true =>
    obtain ⟨fs, rfl⟩ := Expr.exists_eq_product hprod
    rw [power_eq, if_neg (by simpa [Expr.isZero] using hk),
      if_neg (by simpa [Expr.isOne] using hk1)] at hr
    have hint : (num (k : Rat)).isInteger = true := by simp [Expr.isInteger]
    simp only [hint, if_true] at hr
    obtain ⟨rs, hrs, hr⟩ := bind_eq_ok_iff.mp hr
    obtain ⟨rfl, hpow⟩ := eq_map_raised (mapM_eq_ok_iff.mp hrs)
    exact ⟨fun f hf => hpow f (Expr.mem_of_mem_nonNumbers hf), .inl hr⟩
  | false =>
    rw [Expr.factors_of_not_isProduct hprod, List.map_singleton, raised_eq hr]
    refine ⟨fun f hf => ?_, .inr rfl⟩
    rw [List.mem_singleton.mp (Expr.mem_of_mem_nonNumbers hf), raised_eq hr, hr]

/-- The factors can be raised if the expression can, and the power is the product of what they come
to, also where some are expanded, if its own bases are different. -/
theorem product_raised_factors (h : a.IsStable) (h0 : a ≠ num 0) (hr : power a (num k) = .ok r)
    (hd : r.HasDistinctBases) : (∀ f ∈ nonNumbers a.factors, power f (num k) = .ok (raised k f)) ∧
      product (a.factors.map (raised k)) = .ok r := by
  by_cases hk : k = 0
  · have hraised := isRaised_of_mem h fun hexp : a.ExpandsAt k => hexp.1 hk
    exact ⟨fun f hf => (hraised f hf).power_eq,
      (power_eq_product_raised h h0 hraised).symm.trans hr⟩
  · obtain ⟨hpow, hprod⟩ := raised_of_power h hk hr
    refine ⟨hpow, hprod.elim id fun hone => hone ▸ product_singleton ?_⟩
    exact ⟨settled_power h.settled (Expr.settled_num _) hr, hd,
      isMeasured_power h.measured (Expr.isStable_num _).measured hr⟩

/-- A whole power that expands nothing consists of what is left of the factors and the rational in
front, unless that is distributed over a sum. -/
theorem exists_power (h : a.IsStable) (h0 : a ≠ num 0) (hexp : ¬a.ExpandsAt k)
    (hs : spread? (powerRational k a) (powerRest k a) = none) :
    ∃ p, power a (num k) = .ok p ∧ p.IsStable ∧
      coefficientOf p.factors = powerRational k a ∧ nonNumbers p.factors ~ powerRest k a := by
  have hr := isRaised_of_mem h hexp
  obtain ⟨hfactors, hd⟩ := factors_powerRest h hr
  have hn := fun g hg => (hfactors g hg).1.not_isNum
  have hp := fun g hg => (hfactors g hg).1.not_isProduct
  have hstable := stable_productOf hn hp (fun g hg => (hfactors g hg).1.stable) hd hs
  refine ⟨_, ?_, hstable,
    factors_productOf hn hp (powerRational_ne_zero h h0 fun f hf => (hr f hf).ne_zero)⟩
  rw [power_eq_distribute h h0 hexp, distribute, hs]
  exact inOrder_eq_ok_iff.mpr ⟨rfl, hstable.measured.hasOrder⟩

/-- The exponent of a base in a power is that in what is left of the factor with the base. -/
theorem exponentAt_powerRest (h : a.IsStable) (hr : ∀ f ∈ nonNumbers a.factors, IsRaised k f)
    (hf : f ∈ nonNumbers a.factors) :
    exponentAt f.base (powerRest k a) = exponentAt f.base (raisedRest k f) := by
  obtain ⟨hnodup, hsettled⟩ := bases_of_isStable h
  exact exponentAt_flatMap hnodup hsettled (fun f hf => (hr f hf).rest) hf

end Canonical
end StackAlgebra
