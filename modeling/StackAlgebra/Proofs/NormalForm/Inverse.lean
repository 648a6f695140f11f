import StackAlgebra.Proofs.NormalForm.Exponents

/-!
# Inverses of stable expressions

The inverse of a stable expression is put together from the inverses of its factors, whose bases are
those of the factors (`power_neg_one_eq_distribute`). The exponents are the opposite ones, but for
roots of numbers: with `0 < x < 1` the inverse of `q ^ x` is `q⁻¹` times `q ^ (1 - x)`. Either way
the product of a factor with its inverse leaves a number (`IsInverse`), so that a stable expression
times its inverse is one (`product_inverse`), as long as the rational in front of the inverse is not
distributed over a sum.
-/

namespace StackAlgebra.Expr

/-- A rational other than one over a sum. -/
def IsNumberOverSum (a : Expr) : Prop :=
  ∃ c ts, c ≠ 1 ∧ a = product [num c, power (sum ts) (num (-1))]

end StackAlgebra.Expr

namespace StackAlgebra.Canonical

open StackAlgebra.Expr (num nonNumbers isNum coefficientOf coordinates HaveDistinctBases
  HasDistinctBases)
open scoped List

variable {a f g r : Expr} {fs ts : List Expr} {gs : List (Rat × Expr)} {c q x : Rat}

/-! ## Factors -/

/-- A stable expression that can be a factor beside a rational. -/
structure IsFactor (f : Expr) : Prop where
  stable : f.IsStable
  not_isNum : f.isNum = false
  not_isProduct : f.isProduct = false

/-- The factors of a stable expression that are no numbers. -/
theorem isFactor_of_mem (h : a.IsStable) : ∀ f ∈ nonNumbers a.factors, IsFactor f := by
  intro f hf
  have hmem := Expr.mem_of_mem_nonNumbers hf
  exact ⟨stable_factors h f hmem, Expr.isNum_of_mem_nonNumbers hf,
    h.settled.not_isProduct_factors f hmem⟩

/-- The base of a factor is settled. -/
theorem IsFactor.settled_base (h : IsFactor f) : f.base.IsSettled :=
  (stable_splitPower h.stable).1.settled

/-- The exponent of a factor is settled. -/
theorem IsFactor.settled_exponent (h : IsFactor f) : f.exponent.IsSettled :=
  (stable_splitPower h.stable).2.settled

/-- A factor is all that is left of it without the numbers. -/
theorem IsFactor.nonNumbers_factors (h : IsFactor f) : nonNumbers f.factors = [f] := by
  rw [Expr.factors_of_not_isProduct h.not_isProduct, Expr.nonNumbers_cons h.not_isNum]
  rfl

/-- A factor has no rational in front. -/
theorem IsFactor.coefficientOf_factors (h : IsFactor f) : coefficientOf f.factors = 1 := by
  rw [Expr.factors_of_not_isProduct h.not_isProduct, coefficientOf_cons h.not_isNum]
  rfl

/-- Up to the rational `c` the factor `g` is the inverse of the factor `f`: both have one base, and
the exponents add up to zero, or to one for roots of a number. -/
inductive IsInverse (f : Expr) (c : Rat) (g : Expr) : Prop where
  | opposite (hf : IsFactor f) (hg : IsFactor g) (hc : c = 1) (hz : f.base ≠ num 0)
      (hb : g.base = f.base) (he : g.exponent.coordinates = -f.exponent.coordinates)
  | root (q x : Rat) (hf : IsFactor f) (hg : IsFactor g) (hc : c = q⁻¹)
      (hq : f = .power (num q) (num x)) (hx : g = .power (num q) (num (1 - x)))

namespace IsInverse

/-- The factor is the inverse of its inverse, with the same rational. -/
theorem symm (h : IsInverse f c g) : IsInverse g c f := by
  cases h with
  | opposite hf hg hc hz hb he =>
    exact .opposite hg hf hc (hb ▸ hz) hb.symm (by rw [he, neg_neg])
  | root q x hf hg hc hq hx => exact .root q (1 - x) hg hf hc hx (by rw [hq, sub_sub_cancel])

/-- A factor and its inverse have the same base. -/
theorem base (h : IsInverse f c g) : g.base = f.base := by
  cases h with
  | opposite _ _ _ _ hb _ => exact hb
  | root q x _ _ _ hq hx =>
    rw [hq, hx]
    rfl

/-- What has an inverse is a factor. -/
theorem isFactor (h : IsInverse f c g) : IsFactor f := by
  cases h with
  | opposite hf => exact hf
  | root _ _ hf => exact hf

/-- The rational beside an inverse is not zero. -/
theorem ne_zero (h : IsInverse f c g) : c ≠ 0 := by
  cases h with
  | opposite _ _ hc =>
    rw [hc]
    exact one_ne_zero
  | root q x hf _ hc hq =>
    rw [hc]
    exact inv_ne_zero (base_ne_of_root (hq ▸ hf.stable.settled)).1

end IsInverse

/-- A power to minus one is a power of the base to the opposite exponent. -/
theorem power_neg_one_eq (hf : IsFactor f) : ∃ x : Expr, x.IsStable ∧
    x.coordinates = -f.exponent.coordinates ∧ power f (num (-1)) = power f.base x := by
  cases f with
  | power b e =>
    have he : e.IsStable := hf.stable.child (by simp)
    obtain ⟨x, hx, hxs, hxc⟩ := hasCoordinates_product_num he (-1)
    have hsettled : ∀ y ∈ [num (-1), e], y.IsSettled := by
      simpa using ⟨Expr.settled_num _, he.settled⟩
    have hx' : product [e, num (-1)] = .ok x := product_perm hsettled (.swap _ _ _) hx
    refine ⟨x, hxs, by rw [hxc, neg_one_smul]; rfl, ?_⟩
    rw [power_eq (.power b e), if_neg (by decide), if_neg (by decide)]
    simp only [hx']
    rfl
  | _ =>
    exact ⟨num (-1), Expr.isStable_num _, coordinates_num_neg 1, rfl⟩

/-- The base of a factor is no power, not one, and no product unless the exponent is no integer. -/
structure IsBase (b e : Expr) : Prop where
  stable : b.IsStable
  not_isPower : b.isPower = false
  not_isOne : b.isOne = false
  not_isProduct : e.isInteger = true → b.isProduct = false

/-- The base of a factor is a base. -/
theorem IsFactor.isBase (hf : IsFactor f) : IsBase f.base f.exponent := by
  have hb := (stable_splitPower hf.stable).1
  cases f with
  | power b e =>
    have hn := (Expr.settled_power_iff.mp hf.stable.settled).1
    exact ⟨hb, hn.not_isPower, hn.base_ne_one, hn.not_isProduct_of_isInteger⟩
  | num q => cases hf.not_isNum
  | product fs => cases hf.not_isProduct
  | _ => exact ⟨hb, rfl, rfl, fun _ => rfl⟩

/-- A base to an exponent other than zero and one stays a power, unless a power of a number is to be
evaluated. -/
theorem IsBase.power_stays {b e : Expr} (hb : IsBase b e) (h0 : e.isZero = false)
    (h1 : e.isOne = false) (hn : b.isNum = true → e.isNum = false) :
    power b e = .ok (.power b e) := by
  cases hnum : b.isNum with
  | true =>
    obtain ⟨q, rfl⟩ := Expr.exists_eq_num hnum
    have hq : q ≠ 1 := by simpa [Expr.isOne] using hb.not_isOne
    exact Raised.eq_ok (.number h0 h1 q rfl (numberPower_of_not_isNum hq (hn hnum)))
  | false =>
    refine Raised.eq_ok (.stays h0 h1 hnum ?_ ?_ rfl)
    · rintro b' a rfl
      cases hb.not_isPower
    · intro hprod
      by_contra hint
      rw [hb.not_isProduct (Bool.not_eq_false _ ▸ hint)] at hprod
      cases hprod

/-- A base to an exponent other than zero and one is a factor, unless a power of a number is to be
evaluated. -/
theorem IsBase.isFactor {b e : Expr} (hb : IsBase b e) (he : e.IsStable) (h0 : e.isZero = false)
    (h1 : e.isOne = false) (hn : b.isNum = true → e.isNum = false) : IsFactor (.power b e) where
  stable :=
    ⟨settled_power hb.stable.settled he.settled (hb.power_stays h0 h1 hn),
      .intro trivial (.pair hb.stable.distinct he.distinct),
      Expr.isMeasured_power_iff.mpr ⟨hb.stable.measured, he.measured⟩⟩
  not_isNum := rfl
  not_isProduct := rfl

/-- A base to an exponent other than zero is a factor, unless a power of a number is to be
evaluated. -/
theorem IsBase.exists_factor {b e : Expr} (hb : IsBase b e) (he : e.IsStable)
    (h0 : e.isZero = false) (hn : b.isNum = true → e.isNum = false) :
    ∃ g, power b e = .ok g ∧ IsFactor g ∧ g.base = b ∧ g.exponent = e := by
  cases h1 : e.isOne with
  | true =>
    have he1 : e = num 1 := by
      cases e with
      | num q => simpa [Expr.isOne] using h1
      | _ => cases h1
    subst he1
    have hnum : b.isNum = false := by
      by_contra hb'
      cases hn (Bool.not_eq_false _ ▸ hb')
    refine ⟨b, Raised.eq_ok (.one h0 h1 rfl), ⟨hb.stable, hnum, hb.not_isProduct rfl⟩, ?_⟩
    have hpow := hb.not_isPower
    cases b with
    | power b' a => cases hpow
    | _ => exact ⟨rfl, rfl⟩
  | false => exact ⟨.power b e, hb.power_stays h0 h1 hn, hb.isFactor he h0 h1 hn, rfl, rfl⟩

/-- Opposite exponents are integers or zero together. -/
theorem isInteger_of_coordinates_neg {e x : Expr} (he : e.IsSettled) (hx : x.IsSettled)
    (h : x.coordinates = -e.coordinates) :
    x.isInteger = e.isInteger ∧ x.isZero = e.isZero ∧ x.isNum = e.isNum := by
  have key : ∀ {a b : Expr}, a.IsSettled → b.IsSettled → b.coordinates = -a.coordinates →
      ∀ q, a = num q → b = num (-q) := by
    rintro a b ha hb hab q rfl
    exact eq_of_coordinates_eq hb (Expr.settled_num _) (by rw [hab, coordinates_num_neg])
  cases hn : e.isNum with
  | true =>
    obtain ⟨q, rfl⟩ := Expr.exists_eq_num hn
    rw [key he hx h q rfl]
    refine ⟨?_, ?_, rfl⟩
    · simp [Expr.isInteger]
    · simp [Expr.isZero]
  | false =>
    have hxn : x.isNum = false := by
      by_contra hx'
      obtain ⟨q, hq⟩ := Expr.exists_eq_num (Bool.not_eq_false _ ▸ hx')
      rw [key hx he (by rw [h, neg_neg]) q hq] at hn
      cases hn
    refine ⟨?_, ?_, hxn⟩
    · rw [isInteger_of_not_isNum hn, isInteger_of_not_isNum hxn]
    · cases e with
      | num q => cases hn
      | _ =>
        cases x with
        | num q => cases hxn
        | _ => rfl

/-- The exponent of a factor is not zero. -/
theorem IsFactor.exponent_ne_zero (hf : IsFactor f) : f.exponent.isZero = false := by
  cases f with
  | power b e => exact (Expr.settled_power_iff.mp hf.stable.settled).1.exponent_ne_zero
  | _ => rfl

/-- What a root lacks to the number is a root as well. -/
theorem settled_root_complement (h : (Expr.power (num q) (num x)).IsSettled) :
    (Expr.power (num q) (num (1 - x))).IsSettled := by
  obtain ⟨hn, -, -⟩ := Expr.settled_power_iff.mp h
  obtain ⟨h0, h1⟩ := hn.part q x rfl rfl
  have hden : (1 - x).den = x.den := by
    rw [← neg_sub, Rat.neg_den]
    exact_mod_cast Rat.sub_intCast_den x 1
  have hx : x.den ≠ 1 := by
    intro hd
    have hi := hn.not_isNum_of_isInteger (by simpa [Expr.isInteger] using hd)
    cases hi
  refine settled_root (hden.trans_ne hx) (by linarith) (by linarith) ?_ ?_
  · rw [hden]
    exact hn.real q x rfl rfl
  · rw [hden]
    exact hn.no_root q x rfl rfl

/-- Powers of a number to a number are roots only. -/
theorem isNum_exponent (hf : IsFactor f) (hb : f.base.isNum = true) (he : f.exponent.isNum = true) :
    ∃ q x, f = .power (num q) (num x) := by
  cases f with
  | power b e =>
    obtain ⟨q, rfl⟩ := Expr.exists_eq_num (e := b) hb
    obtain ⟨x, rfl⟩ := Expr.exists_eq_num (e := e) he
    exact ⟨q, x, rfl⟩
  | num q => cases hf.not_isNum
  | _ => cases hb

/-- A factor whose base is not zero has an inverse. -/
theorem exists_isInverse (hf : IsFactor f) (hz : f.base ≠ num 0) : ∃ c g, IsInverse f c g := by
  by_cases hroot : ∃ q x, f = .power (num q) (num x)
  · obtain ⟨q, x, rfl⟩ := hroot
    have hs := settled_root_complement hf.stable.settled
    have hg : (Expr.power (num q) (num (1 - x))).IsStable :=
      ⟨hs, .intro trivial (.pair (Expr.isStable_num q).distinct (Expr.isStable_num _).distinct),
          by simp⟩
    exact ⟨q⁻¹, _, .root q x hf ⟨hg, rfl, rfl⟩ rfl rfl rfl⟩
  · obtain ⟨x, hxs, hxc, -⟩ := power_neg_one_eq hf
    obtain ⟨hb, he⟩ := stable_splitPower hf.stable
    obtain ⟨hint, hzero, hnum⟩ := isInteger_of_coordinates_neg he.settled hxs.settled hxc
    have hbase : IsBase f.base x := ⟨hb, hf.isBase.not_isPower, hf.isBase.not_isOne, fun hi =>
      hf.isBase.not_isProduct (hint ▸ hi)⟩
    have hsymbolic : f.base.isNum = true → x.isNum = false := by
      intro hbn
      rw [hnum, ← Bool.not_eq_true]
      exact fun hen => hroot (isNum_exponent hf hbn hen)
    obtain ⟨g, -, hg, hgb, rfl⟩ :=
      hbase.exists_factor hxs (hzero.trans hf.exponent_ne_zero) hsymbolic
    exact ⟨1, g, .opposite hf hg rfl hz hgb hxc⟩

/-! ## Powers to minus one -/

/-- The power of a factor to minus one is its inverse, with the rational that belongs to it. -/
theorem power_neg_one (h : IsInverse f c g) : ∃ r, power f (num (-1)) = .ok r ∧ r.IsStable ∧
    coefficientOf r.factors = c ∧ nonNumbers r.factors = [g] := by
  obtain ⟨y, hys, hyc, hpow⟩ := power_neg_one_eq h.isFactor
  cases h with
  | opposite hf hg hc hz hb he =>
    have hy : y = g.exponent :=
      eq_of_coordinates_eq hys.settled hg.settled_exponent (hyc.trans he.symm)
    rw [hpow, hy, ← hb, power_splitPower hg.stable.settled]
    refine ⟨g, rfl, hg.stable, ?_⟩
    exact ⟨hg.coefficientOf_factors.trans hc.symm, hg.nonNumbers_factors⟩
  | root q x hf hg hc hq hx =>
    have hy : y = num (-x) := by
      refine eq_of_coordinates_eq hys.settled (Expr.settled_num _) ?_
      rw [hyc, coordinates_num_neg, hq]
      rfl
    have hmonic := Expr.isMonic_of_not_isProduct hg.stable.settled hg.not_isNum (by rw [hx]; rfl)
      hg.not_isProduct
    obtain ⟨h0, h1⟩ := base_ne_of_root (hq ▸ hf.stable.settled)
    have hpower : power f.base y = .ok (term c g) := by
      have hsplit : -x = 1 - x + (-1 : ℤ) := by
        push_cast
        ring
      have hbase : f.base = num q := by
        rw [hq]
        rfl
      rw [hbase, hy, power_num_num h0 h1, hsplit, rationalPower_add_int (hx ▸ hg.stable.settled),
        zpow_neg_one, hc, hx]
    obtain ⟨h2, h3⟩ := factors_term hmonic c
    have hstable : (term c g).IsStable :=
      ⟨hmonic.settled_term (hc ▸ inv_ne_zero h0),
        ignoresCoefficients_hasDistinctBases.term hg.stable.distinct c,
        ignoresCoefficients_isMeasured.term hg.stable.measured c⟩
    refine ⟨term c g, by rw [hpow, hpower], hstable, h2, ?_⟩
    rw [h3, Expr.factors_of_not_isProduct hg.not_isProduct]

/-- The power of a number other than zero to minus one is its inverse. -/
theorem power_num_neg_one (h : q ≠ 0) : power (num q) (num (-1)) = .ok (num q⁻¹) := by
  simpa using power_num_int (k := -1) (absurd · h)

/-- The inverses of factors, with the rationals that belong to them. -/
def AreInverses (fs : List Expr) (gs : List (Rat × Expr)) : Prop :=
  List.Forall₂ (fun f g => IsInverse f g.1 g.2) fs gs

/-- Inverses have the bases of the factors. -/
theorem AreInverses.map_base (h : AreInverses fs gs) :
    (gs.map Prod.snd).map Expr.base = fs.map Expr.base := by
  induction h with
  | nil => rfl
  | cons hfg _ ih => rw [List.map_cons, List.map_cons, List.map_cons, ih, hfg.base]

/-- The rationals beside inverses are not zero. -/
theorem AreInverses.prod_ne_zero (h : AreInverses fs gs) :
    (gs.map Prod.fst).prod ≠ 0 := by
  refine List.prod_ne_zero fun hz => ?_
  obtain ⟨g, hg, hg0⟩ := List.mem_map.mp hz
  obtain ⟨f, -, hfg⟩ := exists_of_mem_forall₂ h hg
  exact hfg.ne_zero hg0

/-- The powers of factors to minus one are put together from inverses. -/
theorem exists_powers_neg_one (h0 : ∀ q, num q ∈ fs → q ≠ 0)
    (h : AreInverses (nonNumbers fs) gs) :
    ∃ rs, List.Forall₂ (fun f r => power f (num (-1)) = .ok r) fs rs ∧ (∀ r ∈ rs, r.IsStable) ∧
      coefficientOf (rs.flatMap Expr.factors) = (coefficientOf fs)⁻¹ * (gs.map Prod.fst).prod ∧
      nonNumbers (rs.flatMap Expr.factors) = gs.map Prod.snd := by
  induction fs generalizing gs with
  | nil =>
    obtain rfl := List.forall₂_nil_left_iff.mp h
    exact ⟨[], .nil, List.forall_mem_nil _, by simp [coefficientOf], rfl⟩
  | cons f fs ih =>
    have h0' : ∀ q, num q ∈ fs → q ≠ 0 := fun q hq => h0 q (List.mem_cons_of_mem _ hq)
    cases hn : f.isNum with
    | true =>
      obtain ⟨q, rfl⟩ := Expr.exists_eq_num hn
      obtain ⟨rs, hrs, hs, hc, hg⟩ := ih h0' h
      refine ⟨num q⁻¹ :: rs, .cons (power_num_neg_one (h0 q List.mem_cons_self)) hrs,
        List.forall_mem_cons.mpr ⟨Expr.isStable_num _, hs⟩, ?_, hg⟩
      rw [List.flatMap_cons, coefficientOf_append, hc, coefficientOf, mul_inv, mul_assoc]
      exact congrArg (· * _) (mul_one q⁻¹)
    | false =>
      rw [AreInverses, Expr.nonNumbers_cons hn] at h
      obtain ⟨g, gs, hfg, hgs, rfl⟩ := List.forall₂_cons_left_iff.mp h
      obtain ⟨rs, hrs, hs, hc, hg⟩ := ih h0' hgs
      obtain ⟨r, hr, hrset, hrc, hrg⟩ := power_neg_one hfg
      refine ⟨r :: rs, .cons hr hrs, List.forall_mem_cons.mpr ⟨hrset, hs⟩, ?_, ?_⟩
      · rw [List.flatMap_cons, coefficientOf_append, hrc, hc, coefficientOf_cons hn, List.map_cons,
          List.prod_cons, mul_left_comm]
      · rw [List.flatMap_cons, Expr.nonNumbers_append, hrg, hg]
        rfl

/-- Multiplying a stable expression by one changes nothing. -/
theorem product_num_one (h : a.IsStable) : product [num 1, a] = .ok a := by
  obtain ⟨r, hr, hrs, hrc⟩ := hasCoordinates_product_num h 1
  rw [one_smul] at hrc
  rw [hr, eq_of_coordinates_eq hrs.settled h.settled hrc]

/-- The product of a stable expression alone is the expression. -/
theorem product_singleton (h : a.IsStable) : product [a] = .ok a := by
  have hsettled : ∀ f ∈ [num 1, a], f.IsSettled :=
    List.forall_mem_cons.mpr ⟨Expr.settled_num 1, List.forall_mem_singleton.mpr h.settled⟩
  refine product_congr_factors hsettled (List.forall_mem_singleton.mpr h.settled) ?_
    (.refl _) (product_num_one h)
  exact (one_mul _).symm

/-- There is no zero among the factors of a settled expression other than zero. -/
theorem num_ne_zero_of_mem_factors (h : a.IsSettled) (h0 : a ≠ num 0) :
    ∀ q, num q ∈ a.factors → q ≠ 0 := by
  cases a with
  | product fs => exact (Expr.settled_product_iff.mp h).1.num_ne_zero
  | num p =>
    rintro q hq rfl
    exact h0 (List.mem_singleton.mp hq).symm
  | _ =>
    intro q hq
    cases List.mem_singleton.mp hq

/-- The coefficient of a settled expression other than zero is not zero. -/
theorem coefficient_ne_zero (h : a.IsSettled) (h0 : a ≠ num 0) : coefficientOf a.factors ≠ 0 := by
  cases a with
  | product fs => exact (Expr.settled_product_iff.mp h).1.coefficient_ne_zero
  | num p =>
    intro hp
    rw [show coefficientOf (num p).factors = p from mul_one p] at hp
    exact h0 (congrArg num hp)
  | _ => exact one_ne_zero

/-- The factors of a stable expression have different bases. -/
theorem haveDistinctBases_factors (h : a.IsStable) : HaveDistinctBases a.factors := by
  cases a with
  | product fs => exact h.distinct.here
  | num q => exact .nil
  | _ => exact List.pairwise_singleton _ _

/-- An integer power of an expression is the product of those of its factors. -/
theorem power_eq_product {e : Expr} {rs : List Expr} (h0 : e.isZero = false) (h1 : e.isOne = false)
    (hi : e.isInteger = true) (hrs : List.Forall₂ (fun f r => power f e = .ok r) a.factors rs)
    (hs : ∀ r ∈ rs, r.IsStable) : power a e = product rs := by
  cases a with
  | product fs =>
    have hrs : (fs.mapM fun f => power f e) = .ok rs := mapM_eq_ok_iff.mpr hrs
    rw [power_eq, if_neg (by simp [h0]), if_neg (by simp [h1])]
    simp only [hrs, hi, if_true]
    rfl
  | _ =>
    obtain ⟨r, _, hr, hnil, rfl⟩ := List.forall₂_cons_left_iff.mp hrs
    obtain rfl := List.forall₂_nil_left_iff.mp hnil
    rw [product_singleton (hs r List.mem_cons_self)]
    exact hr

/-- The power of a stable expression to minus one is put together from the inverses of its
factors. -/
theorem power_neg_one_eq_distribute (h : a.IsStable) (h0 : a ≠ num 0)
    (hgs : AreInverses (nonNumbers a.factors) gs) : power a (num (-1)) =
      distribute ((coefficientOf a.factors)⁻¹ * (gs.map Prod.fst).prod) (gs.map Prod.snd) := by
  obtain ⟨rs, hrs, hs, hc, hg⟩ :=
    exists_powers_neg_one (num_ne_zero_of_mem_factors h.settled h0) hgs
  have hsettled : ∀ r ∈ rs, r.IsSettled := fun r hr => (hs r hr).settled
  have hproduct := power_eq_product (e := num (-1)) (by decide) (by decide) (by decide) hrs hs
  have hopen := opened_perm_factors hsettled
  have hcoef : coefficientOf (opened rs) =
      (coefficientOf a.factors)⁻¹ * (gs.map Prod.fst).prod := by
    rw [Expr.coefficientOf_perm hopen, hc]
  have hperm : nonNumbers (opened rs) ~ gs.map Prod.snd := (hopen.filter _).trans (.of_eq hg)
  have hne : coefficientOf (opened rs) ≠ 0 := by
    rw [hcoef]
    exact mul_ne_zero (inv_ne_zero (coefficient_ne_zero h.settled h0)) hgs.prod_ne_zero
  -- The bases are those of the factors, which are different.
  have hd : HaveDistinctBases (opened rs) := by
    have hd := haveDistinctBases_factors h
    rw [HaveDistinctBases, ← hgs.map_base] at hd
    exact hd.perm (hperm.symm.map _)
  rw [hproduct, product_of_distinct hsettled hne hd, hcoef, distribute_perm _ hperm]
  intro f hf
  exact (areFactors_opened hsettled f (Expr.mem_of_mem_nonNumbers hf)).1

/-! ## Products with inverses -/

/-- In a product with its inverse a factor leaves the inverse of the rational that belongs to
both. -/
theorem power_of_isInverse (h : IsInverse f c g) {e : Expr} (he : e.IsSettled)
    (hc : e.coordinates = f.exponent.coordinates + g.exponent.coordinates) :
    power f.base e = .ok (num c⁻¹) := by
  cases h with
  | opposite hf hg hc1 hz hb hopp =>
    have h0 : e = num 0 := by
      refine eq_of_coordinates_eq he (Expr.settled_num 0) ?_
      rw [hc, hopp, add_neg_cancel, coordinates_zero]
    rw [h0, hc1, inv_one]
    exact power_num_zero hz
  | root q x hf hg hcq hq hx =>
    have h1 : e = num 1 := by
      refine eq_of_coordinates_eq he (Expr.settled_num 1) ?_
      have hsum := coordinates_num_add x (1 - x)
      rw [add_sub_cancel] at hsum
      rw [hc, hsum, hq, hx]
      rfl
    rw [h1, hcq, inv_inv, hq]
    exact power_num_one _

/-- The coefficient of inverse numbers is the inverse. -/
theorem coefficientOf_map_inv (gs : List (Rat × Expr)) :
    coefficientOf (gs.map fun g => num g.1⁻¹) = ((gs.map Prod.fst).prod)⁻¹ := by
  induction gs with
  | nil => exact inv_one.symm
  | cons g gs ih =>
    rw [List.map_cons, coefficientOf, ih, List.map_cons, List.prod_cons, mul_inv]

/-- Factors with inverses of theirs have the bases of the factors alone. -/
theorem map_base_perm_basesOf {os : List Expr} (hos : AreFactors os) (hd : HaveDistinctBases fs)
    (hgs : AreInverses (nonNumbers fs) gs) (hp : nonNumbers os ~ nonNumbers fs ++ gs.map Prod.snd) :
    (nonNumbers fs).map Expr.base ~ basesOf os := by
  refine (List.perm_ext_iff_of_nodup (nodup_of_areDistinct hd) (nodup_basesOf os)).mpr fun β => ?_
  rw [mem_basesOf hos, List.mem_map]
  constructor
  · rintro ⟨f, hf, rfl⟩
    exact ⟨f, hp.mem_iff.mpr (List.mem_append_left _ hf), rfl⟩
  · rintro ⟨f, hf, rfl⟩
    rcases List.mem_append.mp (hp.mem_iff.mp hf) with hf | hf
    · exact ⟨f, hf, rfl⟩
    · have hmem := List.mem_map_of_mem (f := Expr.base) hf
      rw [hgs.map_base] at hmem
      exact List.mem_map.mp hmem

/-- Each base of factors and of their inverses comes to the inverse of the rational that belongs to
both. -/
theorem forall₂_power_inverse {os : List Expr} (hos : AreFactors os) (hm : ∀ f ∈ os, f.IsMeasured)
    (hgs : AreInverses (nonNumbers fs) gs)
    (hexp : ∀ f ∈ nonNumbers fs, ∀ g ∈ gs, g.2.base = f.base →
      exponentAt f.base os = f.exponent.coordinates + g.2.exponent.coordinates) :
    List.Forall₂ (fun β m => power β (totalExponent β os) = .ok m) ((nonNumbers fs).map Expr.base)
      (gs.map fun g => num g.1⁻¹) := by
  rw [List.forall₂_map_left_iff, List.forall₂_map_right_iff]
  have hmem : List.Forall₂ (fun f g => IsInverse f g.1 g.2 ∧ g ∈ gs) (nonNumbers fs) gs :=
    (forall₂_imp_of_mem hgs.flip fun g hg f hfg => ⟨hfg, hg⟩).flip
  refine forall₂_imp_of_mem hmem fun f hf g hfg => ?_
  refine power_of_isInverse hfg.1 (settled_totalExponent hos hm _).1 ?_
  rw [coordinates_totalExponent hos, hexp f hf g hfg.2 hfg.1.base]

/-- A stable expression times what is put together from the inverses of its factors is one. -/
theorem product_inverse {b : Expr} (ha : a.IsStable) (h0 : a ≠ num 0)
    (hb : b.IsStable) (hgs : AreInverses (nonNumbers a.factors) gs)
    (hc : coefficientOf b.factors = (coefficientOf a.factors)⁻¹ * (gs.map Prod.fst).prod)
    (hp : nonNumbers b.factors ~ gs.map Prod.snd) : product [a, b] = .ok (num 1) := by
  have hstable : ∀ f ∈ [a, b], f.IsStable :=
    List.forall_mem_cons.mpr ⟨ha, List.forall_mem_singleton.mpr hb⟩
  have hopen := opened_pair_perm ha.settled hb.settled
  have hos := areFactors_opened fun f hf => (hstable f hf).settled
  have hmeasured : ∀ f ∈ opened [a, b], f.IsMeasured := by
    intro f hf
    refine (stable_flatMap_factors hstable f ?_).measured
    rw [flatMap_factors_pair]
    exact hopen.mem_iff.mp hf
  have hnon : nonNumbers (opened [a, b]) ~ nonNumbers a.factors ++ gs.map Prod.snd := by
    refine (hopen.filter _).trans ((List.Perm.of_eq (Expr.nonNumbers_append _ _)).trans ?_)
    exact hp.append_left _
  have hprod := hgs.prod_ne_zero
  have hcoef : coefficientOf (opened [a, b]) = (gs.map Prod.fst).prod := by
    rw [Expr.coefficientOf_perm hopen, coefficientOf_append, hc,
      mul_inv_cancel_left₀ (coefficient_ne_zero ha.settled h0)]
  -- A factor and its inverse are all that there is with their base.
  have hpowers := forall₂_power_inverse hos hmeasured hgs fun f hf g hg hbase => by
    have hmem : g.2 ∈ nonNumbers b.factors := hp.mem_iff.mpr (List.mem_map_of_mem hg)
    have hexponent := exponentAt_of_mem (haveDistinctBases_factors hb) hmem
    rw [hbase] at hexponent
    rw [exponentAt_perm (hopen.filter _), exponentAt_append,
      exponentAt_of_mem (haveDistinctBases_factors ha) hf, hexponent]
  -- Every base comes to a number, and these make up for the coefficient.
  obtain ⟨ms, hms, hperm⟩ := List.perm_comp_forall₂
    (map_base_perm_basesOf hos (haveDistinctBases_factors ha) hgs hnon).symm hpowers
  have hnums : ∀ m ∈ ms, m.isNum = true := by
    intro m hm
    obtain ⟨g, -, rfl⟩ := List.mem_map.mp (hperm.mem_iff.mp hm)
    rfl
  have hnil : nonNumbers ms = [] := List.filter_eq_nil_iff.mpr fun m hm => by simp [hnums m hm]
  have hinv : coefficientOf ms = ((gs.map Prod.fst).prod)⁻¹ := by
    rw [Expr.coefficientOf_perm hperm, coefficientOf_map_inv]
  rw [product_eq_multiply (hcoef.trans_ne hprod) ((forall₂_mergePower_iff hos hmeasured).mpr hms),
    multiply, hnil, hcoef, hinv, mul_inv_cancel₀ hprod, if_neg (by simp)]
  rfl

/-! ## Distributed rationals -/

/-- A stable expression other than zero is its coefficient times its other factors. -/
theorem distribute_self (h : a.IsStable) (h0 : a ≠ num 0) :
    distribute (coefficientOf a.factors) (nonNumbers a.factors) = .ok a := by
  obtain ⟨r, hr, hrs, hrc⟩ := hasCoordinates_product_num h 1
  rw [one_smul] at hrc
  rw [eq_of_coordinates_eq hrs.settled h.settled hrc, product_num_eq h, one_mul,
    if_neg (coefficient_ne_zero h.settled h0)] at hr
  exact hr

/-- What has the coordinates of a sum, or multiples of them, is a sum. -/
theorem isSum_of_coordinates (hs : (Expr.sum ts).IsSettled) (hr : r.IsSettled)
    (hc : c ≠ 0) (h : r.coordinates = c • (Expr.sum ts).coordinates) : r.isSum = true := by
  by_contra hsum
  rw [Bool.not_eq_true] at hsum
  have hind := areIndependent_of_settled hs
  -- A single term is like every term of the sum, but these are unlike each other.
  have hlike : ∀ t ∈ ts, Expr.areLike (Expr.rest? r) (Expr.rest? t) = true := by
    intro t ht
    by_contra hunlike
    have hzero : r.coordinates (Expr.rest? t) = 0 := by
      rw [coordinates_of_not_isSum hsum, if_neg hunlike]
    rw [h, Pi.smul_apply, coordinates_rest hs ht, smul_eq_mul] at hzero
    exact (mul_ne_zero hc (hind.ne_zero t ht)) hzero
  match ts, (Expr.settled_sum_iff.mp hs).1.two_le with
  | t :: u :: us, _ =>
    have ht := rest?_eq_of_areLike ⟨hr, hsum⟩ (hind.terms t (by simp)) (hlike t (by simp))
    have hu := rest?_eq_of_areLike ⟨hr, hsum⟩ (hind.terms u (by simp)) (hlike u (by simp))
    have hne := (List.pairwise_cons.mp hind.unlike).1 u (by simp)
    rw [← ht, ← hu, Expr.areLike_self] at hne
    cases hne

/-- A multiple of a sum by a number other than zero is a sum. -/
theorem exists_multiple_sum (h : (Expr.sum ts).IsStable) (hc : c ≠ 0) :
    ∃ us, product [num c, .sum ts] = .ok (.sum us) ∧ (Expr.sum us).IsStable ∧
      (Expr.sum us).coordinates = c • (Expr.sum ts).coordinates := by
  obtain ⟨r, hr, hrs, hrc⟩ := hasCoordinates_product_num h c
  have hsum := isSum_of_coordinates h.settled hrs.settled hc hrc
  cases r with
  | sum us => exact ⟨us, hr, hrs, hrc⟩
  | _ => cases hsum

/-! ## Reciprocals -/

/-- Factors whose bases are not zero have inverses. -/
theorem exists_inverses (h : ∀ f ∈ fs, IsFactor f ∧ f.base ≠ num 0) : ∃ gs, AreInverses fs gs := by
  induction fs with
  | nil => exact ⟨[], .nil⟩
  | cons f fs ih =>
    obtain ⟨⟨hf, hz⟩, h⟩ := List.forall_mem_cons.mp h
    obtain ⟨c, g, hfg⟩ := exists_isInverse hf hz
    obtain ⟨gs, hgs⟩ := ih h
    exact ⟨(c, g) :: gs, .cons hfg hgs⟩

/-- Factors are the inverses of their inverses, with the same rationals. -/
theorem AreInverses.symm (h : AreInverses fs gs) :
    ∃ hs, AreInverses (gs.map Prod.snd) hs ∧ hs.map Prod.snd = fs ∧
    hs.map Prod.fst = gs.map Prod.fst := by
  induction h with
  | nil => exact ⟨[], .nil, rfl, rfl⟩
  | @cons f g fs gs hfg _ ih =>
    obtain ⟨hs, hgs, hf, hc⟩ := ih
    refine ⟨(g.1, f) :: hs, .cons hfg.symm hgs, ?_, ?_⟩
    · rw [List.map_cons, hf]
    · rw [List.map_cons, hc, List.map_cons]

/-- What stands among the inverses of factors is a factor. -/
theorem AreInverses.isFactor (h : AreInverses fs gs) :
    ∀ g ∈ gs.map Prod.snd, IsFactor g := by
  intro g hg
  obtain ⟨x, hx, rfl⟩ := List.mem_map.mp hg
  obtain ⟨f, -, hfx⟩ := exists_of_mem_forall₂ h hx
  exact hfx.symm.isFactor

/-- The rational in front of an inverse is to be distributed only where it is that of a rational
other than one over a sum. -/
theorem isNumberOverSum_of_spread (h : a.IsStable) (h0 : a ≠ num 0)
    (hgs : AreInverses (nonNumbers a.factors) gs)
    (hspread : spread? ((coefficientOf a.factors)⁻¹ * (gs.map Prod.fst).prod) (gs.map Prod.snd) =
      some ts) : a.IsNumberOverSum := by
  obtain ⟨hsum, -, h1⟩ := spread?_eq_some_iff.mp hspread
  obtain ⟨⟨d, g⟩, rfl, rfl⟩ := List.map_eq_singleton_iff.mp hsum
  obtain ⟨f, _, hfg, hnil, hf⟩ := List.forall₂_cons_right_iff.mp hgs
  obtain rfl := List.forall₂_nil_right_iff.mp hnil
  cases hfg with
  | root q x _ _ _ _ hx => cases hx
  | opposite hff hg hd hz hb he =>
    -- The factor is the sum to minus one.
    have hexponent : f.exponent = num (-1) := by
      refine eq_of_coordinates_eq hff.settled_exponent (Expr.settled_num _) ?_
      rw [coordinates_num_neg, eq_neg_iff_add_eq_zero, add_comm, ← eq_neg_iff_add_eq_zero]
      exact he
    have hpower : f = .power (.sum ts) (num (-1)) := by
      have hbare := hff.stable.settled.bare_splitPower
      rw [show f.splitPower.1 = .sum ts from hb.symm, show f.splitPower.2 = num (-1) from hexponent]
        at hbare
      exact hbare.symm
    have hc1 : coefficientOf a.factors ≠ 1 := by
      intro hc
      refine h1 ?_
      rw [hc, List.map_singleton, List.prod_singleton, hd, inv_one, mul_one]
    have hc0 := coefficient_ne_zero h.settled h0
    have hself := distribute_self h h0
    have hmonic := Expr.isMonic_of_not_isProduct hff.stable.settled hff.not_isNum
      (by rw [hpower]; rfl) hff.not_isProduct
    have hfactors : nonNumbers a.factors = f.factors := by
      rw [hf, Expr.factors_of_not_isProduct hff.not_isProduct]
    rw [hfactors, distribute_factors hmonic hc0] at hself
    obtain ⟨ha, -⟩ := inOrder_eq_ok_iff.mp hself
    refine ⟨coefficientOf a.factors, ts, hc1, ?_⟩
    rw [hmonic.term_of_ne_one hc1, hpower] at ha
    exact ha

/-- A stable expression other than zero and than a rational over a sum has a reciprocal: the product
of both is one, and the expression is the reciprocal of its reciprocal. -/
theorem exists_reciprocal (h : a.IsStable) (h0 : a ≠ num 0)
    (hz : ∀ f ∈ nonNumbers a.factors, f.base ≠ num 0) (hsum : ¬a.IsNumberOverSum) :
    ∃ r : Expr, power a (num (-1)) = .ok r ∧ r.IsStable ∧ product [a, r] = .ok (num 1) ∧
      power r (num (-1)) = .ok a := by
  obtain ⟨gs, hgs⟩ := exists_inverses fun f hf => ⟨isFactor_of_mem h f hf, hz f hf⟩
  have hpow := power_neg_one_eq_distribute h h0 hgs
  have hc0 : (coefficientOf a.factors)⁻¹ * (gs.map Prod.fst).prod ≠ 0 :=
    mul_ne_zero (inv_ne_zero (coefficient_ne_zero h.settled h0)) hgs.prod_ne_zero
  have hspread : spread? ((coefficientOf a.factors)⁻¹ * (gs.map Prod.fst).prod) (gs.map Prod.snd) =
      none := by
    cases hs : spread? ((coefficientOf a.factors)⁻¹ * (gs.map Prod.fst).prod) (gs.map Prod.snd) with
    | none => rfl
    | some ts => exact absurd (isNumberOverSum_of_spread h h0 hgs hs) hsum
  have hn : ∀ g ∈ gs.map Prod.snd, g.isNum = false := fun g hg => (hgs.isFactor g hg).not_isNum
  have hp : ∀ g ∈ gs.map Prod.snd, g.isProduct = false :=
    fun g hg => (hgs.isFactor g hg).not_isProduct
  have hd : HaveDistinctBases (gs.map Prod.snd) := by
    rw [HaveDistinctBases, Expr.nonNumbers_of_not_isNum hn, hgs.map_base]
    exact haveDistinctBases_factors h
  have hr := stable_productOf hn hp (fun g hg => (hgs.isFactor g hg).stable) hd hspread
  obtain ⟨hcoef, hperm⟩ := factors_productOf hn hp hc0
  generalize hrdef : productOf ((coefficientOf a.factors)⁻¹ * (gs.map Prod.fst).prod)
    (gs.map Prod.snd) = r at hr hcoef hperm
  have hr0 : r ≠ num 0 := by
    rintro rfl
    exact hc0 (hcoef.symm.trans (zero_mul 1))
  refine ⟨r, ?_, hr, product_inverse h h0 hr hgs hcoef hperm, ?_⟩
  · rw [hpow, distribute, hspread, hrdef]
    exact inOrder_eq_ok_iff.mpr ⟨rfl, hr.measured.hasOrder⟩
  · -- The inverses of the inverses are the factors that there were.
    obtain ⟨hs, hhs, hsf, hsc⟩ := hgs.symm
    obtain ⟨ks, hks, hkperm⟩ := List.perm_comp_forall₂ hperm hhs
    have hfst : (ks.map Prod.fst).prod = (gs.map Prod.fst).prod := by
      rw [← hsc]
      exact (hkperm.map _).prod_eq
    have hsnd : nonNumbers a.factors ~ ks.map Prod.snd := by
      rw [← hsf]
      exact (hkperm.map _).symm
    rw [power_neg_one_eq_distribute hr hr0 hks, hcoef, hfst, mul_inv, inv_inv,
      inv_mul_cancel_right₀ hgs.prod_ne_zero, ← distribute_self h h0]
    exact (distribute_perm (fun f hf => (isFactor_of_mem h f hf).stable.settled) hsnd).symm

/-- A sum is no multiple of itself, other than by one. -/
theorem sum_ne_of_coordinates (hs : (Expr.sum ts).IsSettled) (hc : c ≠ 1)
    (h : r.coordinates = c • (Expr.sum ts).coordinates) : Expr.sum ts ≠ r := by
  rintro rfl
  have hne : c - 1 ≠ 0 := sub_ne_zero.mpr hc
  have hzero : (c - 1) • (Expr.sum ts).coordinates = 0 := by
    rw [sub_smul, one_smul, ← h, sub_self]
  have hcoord : (Expr.sum ts).coordinates = 0 := by
    rw [← inv_smul_smul₀ hne (Expr.sum ts).coordinates, hzero, smul_zero]
  cases eq_of_coordinates_eq hs (Expr.settled_num 0) (hcoord.trans coordinates_zero.symm)

/-- A product with two bases and more, all of them different, is no number. -/
theorem product_ne_num (hfs : ∀ f ∈ fs, f.IsSettled) (h0 : coefficientOf (opened fs) ≠ 0)
    (hd : HaveDistinctBases (opened fs)) (hlen : 2 ≤ (nonNumbers (opened fs)).length) :
    product fs ≠ .ok (num q) := by
  intro h
  have hspread : spread? (coefficientOf (opened fs)) (nonNumbers (opened fs)) = none := by
    refine spread?_eq_none fun ts hsum => ?_
    rw [hsum] at hlen
    exact absurd hlen (by simp)
  rw [product_of_distinct hfs h0 hd, distribute, hspread] at h
  have hp := (factors_productOf (fun f hf => Expr.isNum_of_mem_nonNumbers hf) (fun f hf =>
    not_isProduct_multiplicandsOf fs f (mem_opened.mp (Expr.mem_of_mem_nonNumbers hf))) h0).2
  rw [← (inOrder_eq_ok_iff.mp h).1] at hp
  have hlength := hp.length_eq
  rw [← hlength] at hlen
  cases hlen

/-- A rational other than one over a sum has a reciprocal as well, but the product of both is not
one. -/
theorem product_reciprocal_ne_one (h : a.IsStable) (hsum : a.IsNumberOverSum) :
    ∃ r : Expr, power a (num (-1)) = .ok r ∧ r.IsStable ∧ product [a, r] ≠ .ok (num 1) := by
  obtain ⟨c, ts, hc1, rfl⟩ := hsum
  have hf : IsFactor (.power (.sum ts) (num (-1))) := ⟨h.child (by simp), rfl, rfl⟩
  have hs : (Expr.sum ts).IsStable := (stable_splitPower hf.stable).1
  have hc0 : c ≠ 0 := (Expr.settled_product_iff.mp h.settled).1.num_ne_zero c (by simp)
  have hinverse : IsInverse (.power (.sum ts) (num (-1))) 1 (.sum ts) := by
    refine .opposite hf ⟨hs, rfl, rfl⟩ rfl (by simp [Expr.base, Expr.splitPower]) rfl ?_
    show (num 1).coordinates = -(num (-1)).coordinates
    rw [coordinates_num_neg, neg_neg]
  have hinverses : AreInverses [.power (.sum ts) (num (-1))] [(1, .sum ts)] := .cons hinverse .nil
  have hpow := power_neg_one_eq_distribute h (by simp) hinverses
  -- The reciprocal is the sum with the rational distributed over it.
  obtain ⟨us, hr, hrs, hrc⟩ := exists_multiple_sum hs (inv_ne_zero hc0)
  have hpowr : power (.product [num c, .power (.sum ts) (num (-1))]) (num (-1)) =
      .ok (.sum us) := by
    rw [product_num_eq hs, if_neg (by simpa [coefficientOf, Expr.factors] using hc0)] at hr
    rw [hpow, ← hr]
    simp [coefficientOf, Expr.factors, nonNumbers, isNum]
  have hne := sum_ne_of_coordinates hs.settled (fun hc => hc1 (inv_eq_one.mp hc)) hrc
  have hopen := opened_pair_perm h.settled hrs.settled
  have hnon : nonNumbers (opened [.product [num c, .power (.sum ts) (num (-1))], .sum us]) ~
      [.power (.sum ts) (num (-1)), .sum us] := hopen.filter _
  refine ⟨_, hpowr, hrs, product_ne_num ?_ ?_ (.perm ?_ (hnon.symm.map _)) hnon.length_eq.ge⟩
  · exact List.forall_mem_cons.mpr ⟨h.settled, List.forall_mem_singleton.mpr hrs.settled⟩
  · rw [Expr.coefficientOf_perm hopen]
    exact (mul_one c).trans_ne hc0
  · -- The sum in the denominator and the sum that was distributed are two bases.
    refine List.pairwise_pair.mpr ?_
    rw [← Bool.not_eq_true]
    exact fun hsame => hne ((hs.settled.same_iff_eq hrs.settled).mp hsame)

end StackAlgebra.Canonical
