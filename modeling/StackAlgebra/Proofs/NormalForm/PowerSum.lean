import StackAlgebra.Proofs.NormalForm.IntegerPower

/-!
# Products of powers of one expression

Powers of one expression multiply to its power to the sum of the exponents where they do not clash
(`product_powers`). It comes down to each factor: its two powers come to the power to the sum if
they are merged (`Merges`). That holds of a factor that stays one (`merges_of_factor`), and of a
root of a number unless one of its powers is evaluated beyond its whole part (`merges_root`). The
merged powers multiply to the same as the powers of the factors (`multipliesTo_of_merges`), and the
product does not depend on the order in which it is formed.
-/

namespace StackAlgebra

namespace Expr

/-- The power to `k` is a rational other than zero and one times a sum, over which it is
distributed. -/
def SpreadsAt (a : Expr) (k : ℤ) : Prop :=
  ∃ c ts, c ≠ 0 ∧ c ≠ 1 ∧ (∃ f ∈ a.factors, f.base = sum ts) ∧
    Canonical.power a (num k) = Canonical.product [num c, sum ts]

/-- The power of the root of `q` to `k` is rational, but not whole, and that to `l` is not
rational. -/
def RootsClash (q x : Rat) (k l : ℤ) : Prop :=
  Canonical.HasRoot q (x * k) ∧ (x * k).den ≠ 1 ∧ ¬Canonical.HasRoot q (x * l)

/-- What the powers to `m` and `n` evaluate makes a difference to their product: they are opposite
powers of zero, one of two powers of a root is evaluated that is not whole, or a rational is
distributed over a sum. -/
inductive PowersClash (a : Expr) (m n : ℤ) : Prop where
  | zero (e : Expr) (h : power (num 0) e ∈ a.factors) (hm : m ≠ 0) (hn : m + n = 0)
  | root (q x : Rat) (h : power (num q) (num x) ∈ a.factors)
      (hc : RootsClash q x m n ∨ RootsClash q x n m)
  | sum (hm : m ≠ 0) (hn : n ≠ 0) (h : a.SpreadsAt m ∨ a.SpreadsAt n)

end Expr

namespace Canonical

open StackAlgebra.Expr
  (num nonNumbers isNum coefficientOf coordinates HaveDistinctBases HasDistinctBases)
open scoped List

variable {a b e f g p u r s : Expr} {fs gs ms ts : List Expr} {c q v w x y z : Rat} {k m n : ℤ}

/-! ## Products from merged powers -/

/-- The factors of what has measures have them. -/
theorem isMeasured_factors (h : e.IsMeasured) : ∀ f ∈ e.factors, f.IsMeasured := by
  cases e with
  | product fs => exact Expr.isMeasured_product_iff.mp h
  | _ => exact List.forall_mem_singleton.mpr h

/-- A rational can be put together with what is left of bases. -/
theorem exists_distribute (h : AreStable fs)
    (hpow : ∀ b ∈ basesOf fs, power b (totalExponent b fs) = .ok (mergedPower fs b)) (c : Rat) :
    ∃ s, distribute c ((basesOf fs).flatMap (leftover fs)) = .ok s := by
  have hmem : ∀ g ∈ (basesOf fs).flatMap (leftover fs), g.IsMeasured ∧ g.base.IsStable := by
    intro g hg
    obtain ⟨b, hb, hg⟩ := List.mem_flatMap.mp hg
    have hbase := (h.isBase hb).1
    have hexp := h.totalExponent b
    have hm := isMeasured_power hbase.measured hexp.measured (hpow b hb)
    exact ⟨isMeasured_factors hm g (Expr.mem_of_mem_nonNumbers hg),
      hasStableBases_power hbase hexp.settled (hpow b hb) g hg⟩
  cases hs : spread? c ((basesOf fs).flatMap (leftover fs)) with
  | none =>
    rw [distribute, hs]
    have hm := isMeasured_productOf (fun g hg => (hmem g hg).1) c
    exact ⟨_, inOrder_eq_ok_iff.mpr ⟨rfl, hm.hasOrder⟩⟩
  | some ts =>
    obtain ⟨hone, h0, -⟩ := spread?_eq_some_iff.mp hs
    have hsum : (Expr.sum ts).IsStable := (hmem (.sum ts) (hone ▸ List.mem_singleton.mpr rfl)).2
    obtain ⟨r, hr, -⟩ := hasCoordinates_product_num hsum c
    rw [hone, ← product_num_sum hsum h0]
    exact ⟨r, hr⟩

/-- Stable factors in another order have the same bases, and these come to the same. -/
theorem mergedPower_perm (h : AreStable fs) (hp : fs ~ gs) :
    mergedPower gs = mergedPower fs ∧ Covers (basesOf gs) fs := by
  have hg := h.perm hp
  have hnon : nonNumbers fs ~ nonNumbers gs := hp.filter _
  constructor
  · funext b
    rw [mergedPower, mergedPower, h.totalExponent_eq hg (exponentAt_perm hnon)]
  · have hcovers := Covers.self hg.areFactors
    refine ⟨hcovers.nodup, hcovers.settled, fun b hb => ?_⟩
    obtain ⟨f, hf, hfb⟩ := (mem_basesOf h.areFactors).mp hb
    exact (mem_basesOf hg.areFactors).mpr ⟨f, hnon.mem_iff.mp hf, hfb⟩

/-- A product of stable expressions is what the merged powers of their factors multiply to, or it is
put together from what is left of the bases as it is. -/
theorem product_eq_or (h : ∀ f ∈ fs, f.IsStable) (h0 : coefficientOf (fs.flatMap Expr.factors) ≠ 0)
    (hr : MultipliesTo (fs.flatMap Expr.factors) r) : product fs = .ok r ∨
      product fs = distribute (coefficientOf (fs.flatMap Expr.factors) *
          ((basesOf (fs.flatMap Expr.factors)).map (rationalPart (fs.flatMap Expr.factors))).prod)
        ((basesOf (fs.flatMap Expr.factors)).flatMap (leftover (fs.flatMap Expr.factors))) := by
  have hopen := opened_perm_factors fun f hf => (h f hf).settled
  have hflat := AreStable.flatMap h
  have hstable := hflat.perm hopen.symm
  have hos := hstable.areFactors
  obtain ⟨hmerged, hcovers⟩ := mergedPower_perm hstable hopen
  have hcoef := Expr.coefficientOf_perm hopen
  obtain ⟨ms, hms, hprod⟩ := hr.perm hflat hopen.symm
  obtain ⟨hc, hleft⟩ := contents_merged hos hcovers hms
  have hsettled := MultipliesTo.settled_merged hstable hms
  have hms' := (forall₂_mergePower_iff hos hstable.isMeasured).mpr hms
  have hmerged' : ∀ m ∈ ms, m.IsSettled := fun m hm => hsettled m (List.mem_cons_of_mem _ hm)
  rw [product_eq_multiply (hcoef.trans_ne h0) hms']
  by_cases hexp : Expanded (powersOf (opened fs)) ms
  · exact .inl ((multiply_of_expanded hmerged' hexp).mpr hprod)
  · right
    rw [multiply_of_not_expanded hexp (not_isProduct_of_not_expanded hos hms' hexp), hc, hcoef,
      distribute_perm ?_ hleft]
    · unfold rationalPart leftover
      rw [hmerged]
    · intro f hf
      obtain ⟨m, hm, hf⟩ := List.mem_flatMap.mp (Expr.mem_of_mem_nonNumbers hf)
      exact (hmerged' m hm).factors f hf

/-- Where at most one factor is left of each base a product of stable expressions is put together
from these. -/
theorem product_eq_distribute (h : ∀ f ∈ fs, f.IsStable)
    (hpow : ∀ b ∈ basesOf (fs.flatMap Expr.factors),
      power b (totalExponent b (fs.flatMap Expr.factors)) =
        .ok (mergedPower (fs.flatMap Expr.factors) b))
    (h0 : coefficientOf (fs.flatMap Expr.factors) *
      ((basesOf (fs.flatMap Expr.factors)).map (rationalPart (fs.flatMap Expr.factors))).prod ≠ 0)
    (hleaves : ∀ b ∈ basesOf (fs.flatMap Expr.factors), LeavesOne (fs.flatMap Expr.factors) b) :
    product fs = distribute (coefficientOf (fs.flatMap Expr.factors) *
        ((basesOf (fs.flatMap Expr.factors)).map (rationalPart (fs.flatMap Expr.factors))).prod)
      ((basesOf (fs.flatMap Expr.factors)).flatMap (leftover (fs.flatMap Expr.factors))) := by
  have hflat := AreStable.flatMap h
  have hmerged := product_mergedPower hflat hpow h0 hleaves
  obtain ⟨s, hs⟩ := exists_distribute hflat hpow (coefficientOf (fs.flatMap Expr.factors) *
    ((basesOf (fs.flatMap Expr.factors)).map (rationalPart (fs.flatMap Expr.factors))).prod)
  have hmult : MultipliesTo (fs.flatMap Expr.factors) s :=
    ⟨_, forall₂_mergedPower_iff.mpr hpow, hmerged.trans hs⟩
  rcases product_eq_or h (left_ne_zero_of_mul h0) hmult with hprod | hprod
  · rw [hprod, hs]
  · exact hprod

/-- Where the merged powers of the factors multiply to `r` the product of stable expressions exists;
it is `r` if its bases are different. -/
theorem exists_product
    (ha : a.IsStable) (hb : b.IsStable) (h0 : coefficientOf (a.factors ++ b.factors) ≠ 0)
    (hr : MultipliesTo (a.factors ++ b.factors) r) :
    ∃ s, product [a, b] = .ok s ∧ (s.HasDistinctBases → s = r) := by
  have hab : ∀ f ∈ [a, b], f.IsStable := by simpa using ⟨ha, hb⟩
  have hpair := flatMap_factors_pair a b
  rcases product_eq_or hab (hpair ▸ h0) (hpair ▸ hr) with hprod | hprod
  · exact ⟨r, hprod, fun _ => rfl⟩
  · rw [hpair] at hprod
    obtain ⟨s, hs⟩ := exists_distribute ((AreStable.factors ha).append (.factors hb)) hr.power_eq
      (coefficientOf (a.factors ++ b.factors) *
        ((basesOf (a.factors ++ b.factors)).map (rationalPart (a.factors ++ b.factors))).prod)
    rw [hs] at hprod
    exact ⟨s, hprod, fun hd => (multipliesTo_pair ha hb h0 hprod hd).unique hr⟩

/-- Where at most one factor is left of each base the product of stable expressions is what the
merged powers of the factors multiply to. -/
theorem product_of_leavesOne (ha : a.IsStable) (hb : b.IsStable)
    (h0 : coefficientOf (a.factors ++ b.factors) *
      ((basesOf (a.factors ++ b.factors)).map (rationalPart (a.factors ++ b.factors))).prod ≠ 0)
    (hr : MultipliesTo (a.factors ++ b.factors) r)
    (hleaves : ∀ β ∈ basesOf (a.factors ++ b.factors), LeavesOne (a.factors ++ b.factors) β) :
    product [a, b] = .ok r := by
  have hab : ∀ f ∈ [a, b], f.IsStable := by simpa using ⟨ha, hb⟩
  have hpair := flatMap_factors_pair a b
  rw [product_eq_distribute hab (hpair ▸ hr.power_eq) (hpair ▸ h0) (hpair ▸ hleaves), hpair]
  exact distribute_leftover ((AreStable.factors ha).append (.factors hb)) hr h0 hleaves

/-! ## Powers of one factor -/

/-- A factor that stays one with the multiple of its exponent. -/
theorem rest_of_factor (hg : IsFactor g) (hb : g.base = f.base)
    (he : g.exponent.coordinates = (k : Rat) • f.exponent.coordinates)
    (h : power f (num k) = .ok g) :
    raisedRational k f = 1 ∧ raisedRest k f = [g] ∧
      exponentAt f.base (raisedRest k f) = (k : Rat) • f.exponent.coordinates := by
  have hm := raised_eq h
  have hrest : raisedRest k f = [g] := by
    rw [raisedRest, hm, hg.nonNumbers_factors]
  refine ⟨?_, hrest, ?_⟩
  · rw [raisedRational, hm, hg.coefficientOf_factors]
  · rw [hrest, exponentAt_base hg.not_isNum hb, he]

/-- The exponent of a number in a root of it. -/
theorem exponentAt_rootOf (q z : Rat) : exponentAt (num q) (rootOf q z) = (num z).coordinates := by
  rw [rootOf]
  split_ifs with hz
  · rw [hz, coordinates_zero]
    rfl
  · exact exponentAt_root q z

/-- What is left of the power of a root. -/
theorem rest_of_leaves (h : LeavesRoot q z y v) (hpow : power f (num k) = rationalPower q z) :
    raisedRational k f = v ∧ raisedRest k f = rootOf q y := by
  obtain ⟨m, hm, -, hc, hr⟩ := h.power
  have hraised := raised_eq (hpow.trans hm)
  exact ⟨by rw [raisedRational, hraised, hc], by rw [raisedRest, hraised, hr]⟩

/-- The powers of the factor to `m` and `n` come to that to the sum of both, if they are merged. -/
def Merges (m n : ℤ) (f : Expr) : Prop :=
  ∃ e s, e.IsSettled ∧
    e.coordinates = exponentAt f.base (raisedRest m f) + exponentAt f.base (raisedRest n f) ∧
    power f.base e = .ok s ∧
    raisedRational (m + n) f = raisedRational m f * raisedRational n f * coefficientOf s.factors ∧
    raisedRest (m + n) f = nonNumbers s.factors

/-- Powers of a root of a number come to the power to the sum of the exponents unless one of them is
evaluated beyond its whole part. -/
theorem merges_root (hf : IsFactor (.power (num q) (num x)))
    (hmn : ¬Expr.RootsClash q x m n) (hnm : ¬Expr.RootsClash q x n m) :
    Merges m n (.power (num q) (num x)) := by
  obtain ⟨h0, h1⟩ := base_ne_of_root hf.stable.settled
  have hreal := isReal_root hf.stable.settled
  obtain ⟨y, v, hy, hyr, hyw⟩ := exists_leaves_root hf m
  obtain ⟨z, w, hz, hzr, hzw⟩ := exists_leaves_root hf n
  -- Both values are rational, or both powers leave the parts of the exponents that are not whole.
  have hcases : (y = 0 ∧ IsRationalPower q (x * m) v) ∧ (z = 0 ∧ IsRationalPower q (x * n) w) ∨
      (y = x * m - (x * m).floor ∧ v = q ^ (x * m).floor) ∧
        (z = x * n - (x * n).floor ∧ w = q ^ (x * n).floor) := by
    by_cases hm : HasRoot q (x * m)
    · by_cases hn : HasRoot q (x * n)
      · exact .inl ⟨hyr hm, hzr hn⟩
      · have hden : (x * m).den = 1 := not_not.mp fun hne => hmn ⟨hm, hne, hn⟩
        exact .inr ⟨hyw (.inl hden), hzw (.inr hn)⟩
    · have hden : (x * n).den = 1 ∨ ¬HasRoot q (x * n) := by
        by_cases hn : HasRoot q (x * n)
        · exact .inl (not_not.mp fun hne => hnm ⟨hn, hne, hm⟩)
        · exact .inr hn
      exact .inr ⟨hyw (.inr hm), hzw hden⟩
  obtain ⟨s, t, hs, ht, hc, hr⟩ :=
    rationalPower_add h0 (hreal.mul_int m) (hreal.mul_int n) hy hz hcases
  obtain ⟨hvm, hrm⟩ := rest_of_leaves hy (power_root hf m)
  obtain ⟨hvn, hrn⟩ := rest_of_leaves hz (power_root hf n)
  have hraised : raised (m + n) (.power (num q) (num x)) = t := by
    refine raised_eq ((power_root hf (m + n)).trans ?_)
    rw [Int.cast_add, mul_add, ht]
  refine ⟨num (y + z), s, Expr.settled_num _, ?_, (power_num_num h0 h1 _).trans hs, ?_, ?_⟩
  · rw [hrm, hrn, coordinates_num_add]
    exact congrArg₂ (· + ·) (exponentAt_rootOf q y).symm (exponentAt_rootOf q z).symm
  · rw [raisedRational, hraised, hvm, hvn, hc]
  · rw [raisedRest, hraised, hr]

/-- Powers of a factor come to the power to the sum of the exponents, unless they are opposite
powers of zero or powers of a root one of which is evaluated beyond its whole part. -/
theorem merges_of_factor (hf : IsFactor f) (hm : m ≠ 0) (hn : n ≠ 0) (hem : ¬f.IsExpandedBy m)
    (hen : ¬f.IsExpandedBy n) (hpow : power f (num (m + n : ℤ)) = .ok (raised (m + n) f))
    (hzero : f.base = num 0 → m + n ≠ 0) (hroot : ∀ q x, f = .power (num q) (num x) →
      ¬Expr.RootsClash q x m n ∧ ¬Expr.RootsClash q x n m) : Merges m n f := by
  rcases root_or_symbolic hf with ⟨q, x, rfl⟩ | hsym
  · exact merges_root hf (hroot q x rfl).1 (hroot q x rfl).2
  obtain ⟨g, hgp, hg, hgb, hge⟩ := exists_raised_factor hf hm hem hsym
  obtain ⟨t, htp, ht, htb, hte⟩ := exists_raised_factor hf hn hen hsym
  obtain ⟨hvm, -, hxm⟩ := rest_of_factor hg hgb hge hgp
  obtain ⟨hvn, -, hxn⟩ := rest_of_factor ht htb hte htp
  have hsum : exponentAt f.base (raisedRest m f) + exponentAt f.base (raisedRest n f) =
      ((m + n : ℤ) : Rat) • f.exponent.coordinates := by
    rw [hxm, hxn, ← add_smul, Int.cast_add]
  by_cases hk : m + n = 0
  · -- Opposite powers disappear.
    have hbase := power_num_zero fun hb => hzero hb hk
    have hone : raised (m + n) f = num 1 := by
      refine raised_eq ?_
      rw [hk, Int.cast_zero, power_num_zero]
      rintro rfl
      cases hf.not_isNum
    refine ⟨num 0, num 1, Expr.settled_num 0, ?_, hbase, ?_, ?_⟩
    · rw [hsum, hk, Int.cast_zero, zero_smul, coordinates_zero]
    · rw [raisedRational, hone, hvm, hvn, one_mul, one_mul]
    · rw [raisedRest, hone]
  · obtain ⟨e, hes, hec, hpe⟩ := power_int_eq hf hk
    refine ⟨e, raised (m + n) f, hes.settled, hec.trans hsum.symm, hpe.symm.trans hpow, ?_, rfl⟩
    rw [hvm, hvn, one_mul, one_mul]
    rfl

/-! ## Powers of a stable expression -/

/-- The power `p` of `a` to `k` consists of what is left of the factors and the rational in
front. -/
structure IsPowerOf (a : Expr) (k : ℤ) (p : Expr) : Prop where
  stable : p.IsStable
  coefficient : coefficientOf p.factors = powerRational k a
  rest : nonNumbers p.factors ~ powerRest k a
  raised : ∀ f ∈ nonNumbers a.factors, IsRaised k f

/-- The exponent of a base in a power. -/
theorem IsPowerOf.exponentAt_eq (hp : IsPowerOf a k p) (h : a.IsStable)
    (hf : f ∈ nonNumbers a.factors) :
    exponentAt f.base p.factors = exponentAt f.base (raisedRest k f) := by
  rw [← exponentAt_powerRest h hp.raised hf]
  exact exponentAt_of_perm hp.rest

/-- The bases of a power are among those of the expression. -/
theorem IsPowerOf.mem_basesOf (hp : IsPowerOf a k p) (h : a.IsStable) (hb : b ∈ basesOf p.factors) :
    b ∈ (nonNumbers a.factors).map Expr.base := by
  obtain ⟨g, hg, rfl⟩ := (Canonical.mem_basesOf (AreStable.factors hp.stable).areFactors).mp hb
  obtain ⟨-, f, hf, -, hgb⟩ := (factors_powerRest h hp.raised).1 g (hp.rest.mem_iff.mp hg)
  exact hgb ▸ List.mem_map_of_mem hf

/-- The bases in the product of two powers are those of the expression. -/
theorem mem_basesOf_powers (h : a.IsStable) (hp : IsPowerOf a m p) (hu : IsPowerOf a n u)
    (hb : b ∈ basesOf (p.factors ++ u.factors)) : b ∈ (nonNumbers a.factors).map Expr.base := by
  rcases (mem_basesOf_append (AreStable.factors hp.stable) (.factors hu.stable)).mp hb with hb | hb
  · exact hp.mem_basesOf h hb
  · exact hu.mem_basesOf h hb

/-- A power of an expression other than zero has a rational other than zero in front. -/
theorem IsPowerOf.coefficient_ne_zero (hp : IsPowerOf a k p) (h : a.IsStable) (h0 : a ≠ num 0) :
    coefficientOf p.factors ≠ 0 :=
  hp.coefficient ▸ powerRational_ne_zero h h0 fun f hf => (hp.raised f hf).ne_zero

/-- The powers of a factor that come to the power to the sum are merged to it in the product. -/
theorem mergedPower_of_merges (h : a.IsStable) (hp : IsPowerOf a m p) (hu : IsPowerOf a n u)
    (hf : f ∈ nonNumbers a.factors) (hmerge : Merges m n f) :
    power f.base (totalExponent f.base (p.factors ++ u.factors)) =
        .ok (mergedPower (p.factors ++ u.factors) f.base) ∧
      raisedRational (m + n) f =
        raisedRational m f * raisedRational n f * rationalPart (p.factors ++ u.factors) f.base ∧
      raisedRest (m + n) f = leftover (p.factors ++ u.factors) f.base := by
  obtain ⟨e, s, hes, hec, hs, hc, hr⟩ := hmerge
  have hstable := (AreStable.factors hp.stable).append (.factors hu.stable)
  have htotal : totalExponent f.base (p.factors ++ u.factors) = e := by
    rw [hstable.totalExponent_eq_iff hes, exponentAt_append, hp.exponentAt_eq h hf,
      hu.exponentAt_eq h hf, hec]
  have hmerged := mergedPower_eq (htotal ▸ hs)
  rw [rationalPart, leftover, hmerged, htotal]
  exact ⟨hs, hc, hr⟩

/-- Two powers multiply to the power to the sum of the exponents if the powers of all factors are
merged to it. -/
theorem multipliesTo_of_merges (h : a.IsStable) (h0 : a ≠ num 0) (hp : IsPowerOf a m p)
    (hu : IsPowerOf a n u) (hmerge : ∀ f ∈ nonNumbers a.factors, Merges m n f)
    (hpow : ∀ f ∈ nonNumbers a.factors, power f (num (m + n : ℤ)) = .ok (raised (m + n) f))
    (hr : product (a.factors.map (raised (m + n))) = .ok r) :
    MultipliesTo (p.factors ++ u.factors) r := by
  have hstable := (AreStable.factors hp.stable).append (.factors hu.stable)
  have hmerged := fun f hf => mergedPower_of_merges h hp hu hf (hmerge f hf)
  obtain ⟨hnodup, hsettled⟩ := bases_of_isStable h
  have hbases := fun b hb => mem_basesOf_powers (b := b) h hp hu hb
  have hcovers : Covers ((nonNumbers a.factors).map Expr.base) (p.factors ++ u.factors) := by
    refine ⟨hnodup, fun b hb => ?_, hbases⟩
    obtain ⟨f, hf, rfl⟩ := List.mem_map.mp hb
    exact hsettled f hf
  have hms := forall₂_mergedPower_iff.mpr fun b hb => by
    obtain ⟨f, hf, rfl⟩ := List.mem_map.mp (hbases b hb)
    exact (hmerged f hf).1
  refine ⟨_, hms, ?_⟩
  obtain ⟨hcoef, hleft⟩ := contents_merged hstable.areFactors hcovers hms
  obtain ⟨hcr, hnr⟩ := contents_raised h h0 (m + n)
  have hraised : ∀ x ∈ a.factors.map (raised (m + n)), x.IsSettled := by
    intro x hx
    obtain ⟨f, hf, rfl⟩ := List.mem_map.mp hx
    have hall := forall₂_raised (num_ne_zero_of_mem_factors h.settled h0) hpow
    rw [List.forall₂_map_right_iff, List.forall₂_same] at hall
    exact settled_power (stable_factors h f hf).settled (Expr.settled_num _) (hall f hf)
  -- The raised factors and the merged powers have the same contents.
  refine product_congr_factors hraised (MultipliesTo.settled_merged hstable hms) ?_ ?_ hr
  · -- The rationals of both powers and of the merged powers.
    show coefficientOf (p.factors ++ u.factors) * coefficientOf (List.flatMap Expr.factors _) = _
    have hprod : ((nonNumbers a.factors).map (raisedRational (m + n))).prod =
        ((nonNumbers a.factors).map (raisedRational m)).prod *
          ((nonNumbers a.factors).map (raisedRational n)).prod *
          ((nonNumbers a.factors).map fun f =>
            rationalPart (p.factors ++ u.factors) f.base).prod := by
      rw [← List.prod_map_mul, ← List.prod_map_mul]
      exact congrArg List.prod (List.map_congr_left fun f hf => (hmerged f hf).2.1)
    rw [hcoef, List.map_map, hcr, coefficientOf_append, hp.coefficient, hu.coefficient,
      powerRational, powerRational, powerRational, zpow_add₀ (coefficient_ne_zero h.settled h0),
      hprod]
    show _ *
        ((nonNumbers a.factors).map fun f => rationalPart (p.factors ++ u.factors) f.base).prod = _
    ring
  · rw [hnr]
    refine List.Perm.trans (.of_eq ?_) hleft.symm
    rw [powerRest, List.flatMap_map]
    exact List.flatMap_congr fun f hf => (hmerged f hf).2.2

/-- A rational in front of a power is to be distributed only where the power spreads. -/
theorem spreadsAt_of_spread (h : a.IsStable) (h0 : a ≠ num 0) (hexp : ¬a.ExpandsAt k)
    (hs : spread? (powerRational k a) (powerRest k a) = some ts) : a.SpreadsAt k := by
  obtain ⟨hone, hc0, hc1⟩ := spread?_eq_some_iff.mp hs
  have hmem : .sum ts ∈ powerRest k a := hone ▸ List.mem_singleton.mpr rfl
  obtain ⟨hfactor, f, hf, -, hb⟩ := (factors_powerRest h (isRaised_of_mem h hexp)).1 _ hmem
  refine ⟨powerRational k a, ts, hc0, hc1, ⟨f, Expr.mem_of_mem_nonNumbers hf, hb.symm⟩, ?_⟩
  rw [power_eq_distribute h h0 hexp, hone, product_num_sum hfactor.stable hc0]

/-- A power that expands and distributes nothing consists of what is left of the factors. -/
theorem isPowerOf_of_spread_eq_none (h : a.IsStable) (h0 : a ≠ num 0) (hexp : ¬a.ExpandsAt k)
    (hs : spread? (powerRational k a) (powerRest k a) = none) (hp : power a (num k) = .ok p) :
    IsPowerOf a k p := by
  obtain ⟨p', hp', hstable, hc, hr⟩ := exists_power h h0 hexp hs
  obtain rfl := Except.ok.inj (hp'.symm.trans hp)
  exact ⟨hstable, hc, hr, isRaised_of_mem h hexp⟩

/-- A power that expands nothing consists of what is left of the factors, unless it spreads. -/
theorem isPowerOf_of_not_spreadsAt (h : a.IsStable) (h0 : a ≠ num 0) (hexp : ¬a.ExpandsAt k)
    (hspread : ¬a.SpreadsAt k) (hp : power a (num k) = .ok p) : IsPowerOf a k p := by
  refine isPowerOf_of_spread_eq_none h h0 hexp ?_ hp
  cases hs : spread? (powerRational k a) (powerRest k a) with
  | none => rfl
  | some ts => exact absurd (spreadsAt_of_spread h h0 hexp hs) hspread

/-- Powers of a stable expression that evaluate nothing that makes a difference multiply to the
power to the sum of the exponents. -/
theorem product_powers (h : a.IsStable)
    (h0 : a ≠ num 0) (hm : m ≠ 0) (hn : n ≠ 0) (hem : ¬a.ExpandsAt m) (hen : ¬a.ExpandsAt n)
    (hclash : ¬a.PowersClash m n) (hp : power a (num m) = .ok p) (hu : power a (num n) = .ok u)
    (hr : power a (num (m + n : ℤ)) = .ok r) (hd : r.HasDistinctBases) :
    (∃ s, product [p, u] = .ok s ∧ (s.HasDistinctBases → s = r)) ∧
      (¬a.ExpandsAt (m + n) → product [p, u] = .ok r) := by
  have hpm := isPowerOf_of_not_spreadsAt h h0 hem (fun hs => hclash (.sum hm hn (.inl hs))) hp
  have hpn := isPowerOf_of_not_spreadsAt h h0 hen (fun hs => hclash (.sum hm hn (.inr hs))) hu
  obtain ⟨hpow, hprod⟩ := product_raised_factors h h0 hr hd
  -- Where a factor does not merge the powers clash.
  have hmerge : ∀ f ∈ nonNumbers a.factors, Merges m n f := by
    intro f hf
    have hmem := Expr.mem_of_mem_nonNumbers hf
    refine merges_of_factor (isFactor_of_mem h f hf) hm hn (not_isExpandedBy hem hf hm)
      (not_isExpandedBy hen hf hn) (hpow f hf) (fun hb hk => ?_) fun q x hq => ?_
    · cases f with
      | power b e =>
        obtain rfl : b = num 0 := hb
        exact hclash (.zero e hmem hm hk)
      | num q => cases Expr.isNum_of_mem_nonNumbers hf
      | _ => cases hb
    · subst hq
      exact ⟨fun hc => hclash (.root q x hmem (.inl hc)),
        fun hc => hclash (.root q x hmem (.inr hc))⟩
  have hmult := multipliesTo_of_merges h h0 hpm hpn hmerge hpow hprod
  have hc0 : coefficientOf (p.factors ++ u.factors) ≠ 0 := by
    rw [coefficientOf_append]
    exact mul_ne_zero (hpm.coefficient_ne_zero h h0) (hpn.coefficient_ne_zero h h0)
  refine ⟨exists_product hpm.stable hpn.stable hc0 hmult, fun hexp => ?_⟩
  -- With nothing expanded each base leaves one factor at most.
  have hbases := fun b hb => List.mem_map.mp (mem_basesOf_powers (b := b) h hpm hpn hb)
  have hraised := isRaised_of_mem h hexp
  refine product_of_leavesOne hpm.stable hpn.stable
    (mul_ne_zero hc0 (List.prod_ne_zero fun hz => ?_)) hmult ?_
  · obtain ⟨b, hb, hbz⟩ := List.mem_map.mp hz
    obtain ⟨f, hf, rfl⟩ := hbases b hb
    refine (hraised f hf).ne_zero ?_
    rw [(mergedPower_of_merges h hpm hpn hf (hmerge f hf)).2.1, hbz, mul_zero]
  · intro b hb
    obtain ⟨f, hf, rfl⟩ := hbases b hb
    have hrest := (hraised f hf).rest
    rw [(mergedPower_of_merges h hpm hpn hf (hmerge f hf)).2.2] at hrest
    exact hrest

end Canonical
end StackAlgebra
