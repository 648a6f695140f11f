import StackAlgebra.Proofs.NormalForm.PowerSum
import Mathlib.Tactic.Linarith
import Mathlib.Tactic.Positivity

/-!
# Powers that do not multiply to the power

Where two powers of an expression expand nothing, they multiply to the power to the sum of the
exponents exactly if they do not clash (`product_powers_iff`). Each way to clash leaves its mark in
the product: opposite powers of zero ask for its zeroth power (`not_multipliesTo_zero`), a root that
was evaluated in one power alone leaves the other power's root (`not_multipliesTo_roots`), and a
rational that was distributed makes a new sum the base (`product_ne_of_spreadsAt`).
-/

namespace StackAlgebra.Canonical

open StackAlgebra.Expr
  (num nonNumbers isNum coefficientOf coordinates HaveDistinctBases HasDistinctBases)
open scoped List

variable {a b e f g p u r s : Expr} {fs gs ms ts us : List Expr} {c q v w x y z : Rat} {k m n : ℤ}

/-! ## Where powers do not multiply to the power -/

/-- A sum that is left in a power is left of a factor with that base, which comes to the exponent
one. -/
theorem eq_sum_of_mem_powerRest (h : a.IsStable) (hexp : ¬a.ExpandsAt k)
    (hmem : .sum ts ∈ powerRest k a) : ∃ f ∈ nonNumbers a.factors, f.base = .sum ts ∧
      (k : Rat) • f.exponent.coordinates = (num 1).coordinates := by
  obtain ⟨f, hf, hrest⟩ := List.mem_flatMap.mp hmem
  have hfactor := isFactor_of_mem h f hf
  refine ⟨f, hf, ?_⟩
  cases raises_of_mem h hexp f hf with
  | zero _ hpow =>
    rw [raisedRest, raised_eq hpow] at hrest
    cases hrest
  | factor _ g hg hb he hpow =>
    obtain ⟨-, hg', -⟩ := rest_of_factor hg hb he hpow
    rw [hg', List.mem_singleton] at hrest
    subst hrest
    exact ⟨hb.symm, he.symm⟩
  | root q x hq hpow =>
    subst hq
    obtain ⟨y, v, hy, -⟩ := exists_leaves_root hfactor k
    rw [(rest_of_leaves hy hpow).2, rootOf] at hrest
    split_ifs at hrest
    · cases hrest
    · cases List.mem_singleton.mp hrest

/-- A spreading power has a single sum and a rational other than zero and one left. -/
theorem spread_of_spreadsAt (h : a.IsStable) (h0 : a ≠ num 0) (hk : k ≠ 0) (hexp : ¬a.ExpandsAt k)
    (hs : a.SpreadsAt k) : ∃ ts, spread? (powerRational k a) (powerRest k a) = some ts := by
  obtain ⟨c, ts, hc0, hc1, ⟨f, hf, hb⟩, hpow⟩ := hs
  cases hspread : spread? (powerRational k a) (powerRest k a) with
  | some us => exact ⟨us, rfl⟩
  | none =>
    -- Otherwise the power, a sum, is a factor that is left, and so is one with the base of the sum
    -- distributed over.
    obtain ⟨p, hp, -, -, hpr⟩ := exists_power h h0 hexp hspread
    have hn : f.isNum = false := by
      cases f with
      | num q => cases hb
      | _ => rfl
    have hf' : f ∈ nonNumbers a.factors := List.mem_filter.mpr ⟨hf, by simp [hn]⟩
    have hfactor := isFactor_of_mem h f hf'
    have hsum : (Expr.sum ts).IsStable := hb ▸ (stable_splitPower hfactor.stable).1
    obtain ⟨us, hus, -, husc⟩ := exists_multiple_sum hsum hc0
    obtain rfl := Except.ok.inj (hp.symm.trans (hpow.trans hus))
    have hperm : powerRest k a ~ [.sum us] := hpr.symm
    have hone := List.perm_singleton.mp hperm
    have hne := sum_ne_of_coordinates hsum.settled hc1 husc
    cases raises_of_mem h hexp f hf' with
    | zero h0 => exact absurd h0 hk
    | root q x hq =>
      subst hq
      cases hb
    | factor _ g hg hgb he hpow =>
      obtain ⟨-, hrest, -⟩ := rest_of_factor hg hgb he hpow
      have hmem : g ∈ powerRest k a :=
        List.mem_flatMap.mpr ⟨f, hf', hrest ▸ List.mem_singleton.mpr rfl⟩
      rw [hone, List.mem_singleton] at hmem
      subst hmem
      exact absurd (hb.symm.trans hgb.symm) hne

/-- The numbers other than zero have coordinates. -/
theorem coordinates_num_ne_zero (hq : q ≠ 0) : (num q).coordinates ≠ 0 := by
  intro hz
  exact hq (Expr.num.inj (eq_of_coordinates_eq (Expr.settled_num q) (Expr.settled_num 0)
    (hz.trans coordinates_zero.symm)))

/-- The exponent of a factor has coordinates. -/
theorem exponent_coordinates_ne_zero (hf : IsFactor f) : f.exponent.coordinates ≠ 0 := by
  intro hz
  have hexp := eq_of_coordinates_eq hf.settled_exponent (Expr.settled_num 0)
    (hz.trans coordinates_zero.symm)
  have hne := hf.exponent_ne_zero
  rw [hexp] at hne
  cases hne

/-- No sum comes of two whole powers of one factor to different exponents. -/
theorem eq_of_smul_exponent
    (hf : IsFactor f) (hk : (k : Rat) • f.exponent.coordinates = (num 1).coordinates)
    (hm : (m : Rat) • f.exponent.coordinates = (num 1).coordinates) : k = m := by
  by_contra hne
  have hne' : (k : Rat) - m ≠ 0 := sub_ne_zero.mpr (Int.cast_injective.ne hne)
  refine exponent_coordinates_ne_zero hf ?_
  rw [← inv_smul_smul₀ hne' f.exponent.coordinates, sub_smul, hk, hm, sub_self, smul_zero]

/-- A product consists of what its bases come to, and the exponent of each base in it is what is
left, if none is expanded and the product is no sum. -/
theorem consistsOf_of_not_isSum (h : AreStable fs) (hr : MultipliesTo fs r) (hr0 : r ≠ num 0)
    (hsum : r.isSum = false)
    (hprod : ∀ b ∈ basesOf fs, ∀ k : ℤ, totalExponent b fs = num k → k ≠ 0 → b.isProduct = false) :
    ConsistsOf fs r ∧ ∀ b ∈ basesOf fs, Comes b (totalExponent b fs) (mergedPower fs b) := by
  have hcomes : ∀ b ∈ basesOf fs, Comes b (totalExponent b fs) (mergedPower fs b) := by
    intro b hb
    obtain ⟨hs, hpow, hone⟩ := h.isBase hb
    exact comes_of_power hs hpow hone (h.totalExponent b) (hprod b hb) (hr.power_eq b hb)
  refine ⟨consistsOf_of_multipliesTo h hr (fun hz => hr0 (hr.eq_zero h hz)) hcomes ?_, hcomes⟩
  intro q ts hmem htotal hq
  by_contra hne
  rw [not_or] at hne
  obtain ⟨us, hus, -⟩ := exists_multiple_sum (h.isBase hmem).1 hne.1
  obtain rfl := Except.ok.inj (hq.symm.trans hus)
  cases hsum

/-- A factor that is not a root of a number has a multiple of its exponent after it is raised. -/
theorem exponentAt_raisedRest (hf : IsFactor f) (hexp : k ≠ 0 → ¬f.IsExpandedBy k)
    (hsym : f.base.isNum = true → f.exponent.isNum = false) :
    exponentAt f.base (raisedRest k f) = (k : Rat) • f.exponent.coordinates := by
  cases raises_of_factor hf hexp with
  | zero hk h =>
    rw [raisedRest, raised_eq h, hk, Int.cast_zero, zero_smul]
    rfl
  | factor hk g hg hb he h => exact (rest_of_factor hg hb he h).2.2
  | root q x hq h =>
    subst hq
    cases hsym rfl

/-- The exponents of a base other than that of a root of a number add up in the product of two
powers. -/
theorem totalExponent_powers (h : a.IsStable) (hem : ¬a.ExpandsAt m) (hen : ¬a.ExpandsAt n)
    (hp : IsPowerOf a m p) (hu : IsPowerOf a n u) (hf : f ∈ nonNumbers a.factors)
    (hsym : f.base.isNum = true → f.exponent.isNum = false) :
    exponentAt f.base (p.factors ++ u.factors) = ((m + n : ℤ) : Rat) • f.exponent.coordinates := by
  have hfactor := isFactor_of_mem h f hf
  rw [exponentAt_append, hp.exponentAt_eq h hf, hu.exponentAt_eq h hf,
    exponentAt_raisedRest hfactor (not_isExpandedBy hem hf) hsym,
    exponentAt_raisedRest hfactor (not_isExpandedBy hen hf) hsym, Int.cast_add, add_smul]

/-- Opposite powers of zero have no product. -/
theorem not_multipliesTo_zero (h : a.IsStable) (hem : ¬a.ExpandsAt m) (hen : ¬a.ExpandsAt n)
    (hp : IsPowerOf a m p) (hu : IsPowerOf a n u) (he : .power (num 0) e ∈ a.factors) (hm : m ≠ 0)
    (hk : m + n = 0) : ¬MultipliesTo (p.factors ++ u.factors) r := by
  intro hr
  have hstable := (AreStable.factors hp.stable).append (.factors hu.stable)
  have hf : Expr.power (num 0) e ∈ nonNumbers a.factors := List.mem_filter.mpr ⟨he, rfl⟩
  have hfactor := isFactor_of_mem h _ hf
  have hsym : (Expr.power (num 0) e).base.isNum = true →
      (Expr.power (num 0) e).exponent.isNum = false := by
    rcases root_or_symbolic hfactor with ⟨q, x, hq⟩ | hsym
    · rw [hq] at hfactor
      have hzero := Expr.num.inj (Expr.power.inj hq).1
      exact absurd hzero.symm (base_ne_of_root hfactor.stable.settled).1
    · exact hsym
  have htotal : totalExponent (num 0) (p.factors ++ u.factors) = num 0 := by
    rw [hstable.totalExponent_eq_iff (Expr.settled_num 0), coordinates_zero]
    refine (totalExponent_powers h hem hen hp hu hf hsym).trans ?_
    rw [hk, Int.cast_zero, zero_smul]
  have hmem : num 0 ∈ basesOf (p.factors ++ u.factors) := by
    obtain ⟨g, hpow, hg, hgb, hge⟩ :=
      exists_raised_factor hfactor hm (not_isExpandedBy hem hf hm) hsym
    have hrest := (rest_of_factor hg hgb hge hpow).2.1
    have hgp : g ∈ nonNumbers p.factors :=
      hp.rest.mem_iff.mpr (List.mem_flatMap.mpr ⟨_, hf, hrest ▸ List.mem_singleton.mpr rfl⟩)
    refine (mem_basesOf hstable.areFactors).mpr ⟨g, ?_, hgb⟩
    rw [Expr.nonNumbers_append]
    exact List.mem_append_left _ hgp
  have hpow := hr.power_eq _ hmem
  rw [htotal, power_eq] at hpow
  cases hpow

/-- A power of an expression other than zero is not zero. -/
theorem IsPowerOf.ne_zero (hp : IsPowerOf a k p) (h : a.IsStable) (h0 : a ≠ num 0) : p ≠ num 0 := by
  rintro rfl
  exact hp.coefficient_ne_zero h h0 (zero_mul 1)

/-- In the product of two powers no base is expanded that the power to the sum of the exponents
leaves. -/
theorem not_isProduct_of_totalExponent
    (h : a.IsStable) (hem : ¬a.ExpandsAt m) (hen : ¬a.ExpandsAt n) (hes : ¬a.ExpandsAt (m + n))
    (hp : IsPowerOf a m p) (hu : IsPowerOf a n u) (hb : b ∈ basesOf (p.factors ++ u.factors))
    (hk : totalExponent b (p.factors ++ u.factors) = num k) (hk0 : k ≠ 0) :
    b.isProduct = false := by
  obtain ⟨f, hf, rfl⟩ := List.mem_map.mp (mem_basesOf_powers h hp hu hb)
  rw [← Bool.not_eq_true]
  intro hprod
  have hfactor := isFactor_of_mem h f hf
  have hsym : f.base.isNum = true → f.exponent.isNum = false := fun hn => by
    cases hbase : f.base with
    | num q =>
      rw [hbase] at hprod
      cases hprod
    | _ =>
      rw [hbase] at hn
      cases hn
  have hstable := (AreStable.factors hp.stable).append (.factors hu.stable)
  have htotal := totalExponent_powers h hem hen hp hu hf hsym
  rw [(hstable.totalExponent_eq_iff (Expr.settled_num _)).mp hk] at htotal
  have hmn : m + n ≠ 0 := by
    intro hz
    rw [hz, Int.cast_zero, zero_smul] at htotal
    exact coordinates_num_ne_zero (Int.cast_ne_zero.mpr hk0) htotal
  have hmn' : ((m + n : ℤ) : Rat) ≠ 0 := Int.cast_ne_zero.mpr hmn
  -- The exponent of the base is then a number, and the power to the sum expands it.
  have hexponent := eq_num_of_multiple hmn hfactor.settled_exponent htotal
  obtain ⟨fs, hfs⟩ := exists_power_of_product hfactor hprod hexponent
  refine hes ⟨hmn, f, Expr.mem_of_mem_nonNumbers hf, fs, _, hfs, ?_⟩
  rw [mul_comm, mul_inv_cancel_left₀ hmn', Rat.den_intCast]

/-- A power of a root of a number without a rational value leaves the root whose exponent lacks the
whole part. -/
theorem raisedRest_of_not_hasRoot (hf : IsFactor (.power (num q) (num x)))
    (hno : ¬HasRoot q (x * k)) :
    raisedRest k (.power (num q) (num x)) = [.power (num q) (num (x * k - (x * k).floor))] ∧
      (Expr.power (num q) (num (x * k - (x * k).floor))).IsSettled := by
  obtain ⟨y, v, hy, -, hpart⟩ := exists_leaves_root hf k
  obtain ⟨rfl, -⟩ := hpart (.inr hno)
  have hne : x * k - (x * k).floor ≠ 0 := by
    refine (part_spec fun hden => hno ⟨|q|, ?_⟩).1.ne'
    rw [hden, pow_one]
  rw [(rest_of_leaves hy (power_root hf k)).2, rootOf, if_neg hne]
  exact ⟨rfl, hy.settled.resolve_left hne⟩

/-- A power in which no sum is left alone is not distributed. -/
theorem spread_eq_none (hno : ∀ ts, powerRest k a ≠ [.sum ts]) :
    spread? (powerRational k a) (powerRest k a) = none := by
  cases hs : spread? (powerRational k a) (powerRest k a) with
  | none => rfl
  | some ts => exact absurd (spread?_eq_some_iff.mp hs).1 (hno ts)

/-- A power to which a root of a number has no rational value has the root whose exponent lacks the
whole part; it is not distributed and no sum. -/
theorem isPowerOf_of_root (h : a.IsStable) (h0 : a ≠ num 0) (hexp : ¬a.ExpandsAt k)
    (hf : .power (num q) (num x) ∈ nonNumbers a.factors) (hno : ¬HasRoot q (x * k))
    (hpow : power a (num k) = .ok r) : IsPowerOf a k r ∧ r.isSum = false ∧
      exponentAt (num q) r.factors = (num (x * k - (x * k).floor)).coordinates := by
  obtain ⟨hrest, -⟩ := raisedRest_of_not_hasRoot (isFactor_of_mem h _ hf) hno
  have hroot : Expr.power (num q) (num (x * k - (x * k).floor)) ∈ powerRest k a :=
    List.mem_flatMap.mpr ⟨_, hf, hrest ▸ List.mem_singleton.mpr rfl⟩
  have hspread := spread_eq_none fun ts hts => by
    rw [hts] at hroot
    cases List.mem_singleton.mp hroot
  have hr := isPowerOf_of_spread_eq_none h h0 hexp hspread hpow
  refine ⟨hr, ?_, ?_⟩
  · cases r with
    | sum ts => cases List.mem_singleton.mp (hr.rest.mem_iff.mpr hroot)
    | _ => rfl
  · have hexponent := hr.exponentAt_eq h hf
    rw [hrest] at hexponent
    exact hexponent.trans (exponentAt_root q _)

/-- A power in which no sum is left is no sum. -/
theorem IsPowerOf.isSum_eq_false (hp : IsPowerOf a k p) (hno : ∀ ts, .sum ts ∉ powerRest k a) :
    p.isSum = false := by
  rw [← Bool.not_eq_true]
  intro hsum
  cases p with
  | sum ts => exact hno ts (hp.rest.mem_iff.mp (List.mem_singleton.mpr rfl))
  | _ => cases hsum

/-- A product that comes to a power which is no sum consists of what its bases come to. -/
theorem consistsOf_of_power (h : a.IsStable) (h0 : a ≠ num 0) (hem : ¬a.ExpandsAt m)
    (hen : ¬a.ExpandsAt n) (hes : ¬a.ExpandsAt (m + n)) (hp : IsPowerOf a m p)
    (hu : IsPowerOf a n u) (hr : IsPowerOf a (m + n) r) (hsum : r.isSum = false)
    (hmult : MultipliesTo (p.factors ++ u.factors) r) :
    ConsistsOf (p.factors ++ u.factors) r :=
  (consistsOf_of_not_isSum ((AreStable.factors hp.stable).append (.factors hu.stable)) hmult
      (hr.ne_zero h h0) hsum
    fun _ hb _ hk hk0 => not_isProduct_of_totalExponent h hem hen hes hp hu hb hk hk0).1

/-- The exponent of a number in the product of two powers of its root, the first of which is
evaluated. -/
theorem totalExponent_roots (h : a.IsStable) (hp : IsPowerOf a m p) (hu : IsPowerOf a n u)
    (hf : .power (num q) (num x) ∈ nonNumbers a.factors) (hm : HasRoot q (x * m))
    (hn : ¬HasRoot q (x * n)) :
    totalExponent (num q) (p.factors ++ u.factors) = num (x * n - (x * n).floor) := by
  have hfactor := isFactor_of_mem h _ hf
  obtain ⟨y, v, hy, hyr, -⟩ := exists_leaves_root hfactor m
  have hrestm := (rest_of_leaves hy (power_root hfactor m)).2
  obtain ⟨rfl, -⟩ := hyr hm
  have hpm := hp.exponentAt_eq h hf
  have hun := hu.exponentAt_eq h hf
  rw [hrestm] at hpm
  rw [(raisedRest_of_not_hasRoot hfactor hn).1] at hun
  have hstable := (AreStable.factors hp.stable).append (.factors hu.stable)
  rw [hstable.totalExponent_eq_iff (Expr.settled_num _), exponentAt_append]
  refine (congrArg₂ (· + ·) hpm hun).trans ?_
  exact (congrArg₂ (· + ·) (exponentAt_rootOf q 0) (exponentAt_root q _)).trans
    (by rw [coordinates_zero, zero_add])

/-- If the power to `m` of a root of a number has a rational value without being whole, and that to
`n` has none, powers of an expression with that root do not multiply to the power to the sum of the
exponents. -/
theorem not_multipliesTo_roots (h : a.IsStable)
    (h0 : a ≠ num 0) (hem : ¬a.ExpandsAt m) (hen : ¬a.ExpandsAt n) (hes : ¬a.ExpandsAt (m + n))
    (hp : IsPowerOf a m p) (hu : IsPowerOf a n u) (hpow : power a (num (m + n : ℤ)) = .ok r)
    (hf : .power (num q) (num x) ∈ a.factors) (hclash : Expr.RootsClash q x m n) :
    ¬MultipliesTo (p.factors ++ u.factors) r := by
  intro hr
  obtain ⟨hm, hden, hn⟩ := hclash
  have hmem : Expr.power (num q) (num x) ∈ nonNumbers a.factors := List.mem_filter.mpr ⟨hf, rfl⟩
  have hfactor := isFactor_of_mem h _ hmem
  have hreal := isReal_root hfactor.stable.settled
  have hmn : ¬HasRoot q (x * (m + n : ℤ)) := by
    intro hsum
    rw [Int.cast_add, mul_add] at hsum
    have hq0 := (base_ne_of_root hfactor.stable.settled).1
    exact hn (HasRoot.of_add hq0 (hreal.mul_int m) (hreal.mul_int n) hm hsum)
  obtain ⟨hpr, hsum, hexp'⟩ := isPowerOf_of_root h h0 hes hmem hmn hpow
  -- The root that is left in the product is that of the power to `n` alone.
  have hstable := (AreStable.factors hp.stable).append (.factors hu.stable)
  have hleft : leftover (p.factors ++ u.factors) (num q) =
      [.power (num q) (num (x * n - (x * n).floor))] := by
    have hsettled := (raisedRest_of_not_hasRoot hfactor hn).2
    rw [leftover, mergedPower_eq
      ((congrArg _ (totalExponent_roots h hp hu hmem hm hn)).trans (power_fixed hsettled))]
    rfl
  have hexp := (consistsOf_of_power h h0 hem hen hes hp hu hpr hsum hr).exponentAt_eq
    hstable (Expr.settled_num q)
  rw [hleft, exponentAt_root] at hexp
  have heq := Expr.num.inj
    (eq_of_coordinates_eq (Expr.settled_num _) (Expr.settled_num _) (hexp'.symm.trans hexp))
  -- So the power to `m` is whole.
  refine hden ?_
  have hwhole : x * m = ((x * (m + n : ℤ)).floor - (x * n).floor : ℤ) := by
    push_cast at heq ⊢
    linarith
  rw [hwhole, Rat.den_intCast]

/-- The factors of an expression with a spreading power: the power of one of them is the sum, and
the others are roots of numbers. -/
theorem base_of_spread (h : a.IsStable) (hk : k ≠ 0) (hexp : ¬a.ExpandsAt k)
    (hone : powerRest k a = [.sum ts]) :
    ∃ f ∈ nonNumbers a.factors, f.base = .sum ts ∧
      (k : Rat) • f.exponent.coordinates = (num 1).coordinates ∧
      ∀ g ∈ nonNumbers a.factors, g = f ∨ g.base.isNum = true := by
  obtain ⟨f, hf, hb, he⟩ := eq_sum_of_mem_powerRest h hexp (hone ▸ List.mem_singleton.mpr rfl)
  refine ⟨f, hf, hb, he, fun g hg => ?_⟩
  cases raises_of_mem h hexp g hg with
  | zero h0 => exact absurd h0 hk
  | root q x hq =>
    subst hq
    exact .inr rfl
  | factor _ g' hg' hgb hge hpow =>
    -- What is left of the factor is the sum, so that it has the same base.
    have hmem : g' ∈ powerRest k a :=
      List.mem_flatMap.mpr
        ⟨g, hg, (rest_of_factor hg' hgb hge hpow).2.1 ▸ List.mem_singleton.mpr rfl⟩
    rw [hone, List.mem_singleton] at hmem
    subst hmem
    exact .inl (eq_of_base_eq h hg hf (hgb.symm.trans hb.symm))

/-- Whole powers of one expression to different exponents do not both leave its sum. -/
theorem eq_of_sum_mem_powerRest (h : a.IsStable) (hk : k ≠ 0) (hexp : ¬a.ExpandsAt k)
    (hone : powerRest k a = [.sum ts]) (hem : ¬a.ExpandsAt m) (hmem : .sum us ∈ powerRest m a) :
    m = k ∧ us = ts := by
  obtain ⟨f, hf, hb, he, hall⟩ := base_of_spread h hk hexp hone
  obtain ⟨g, hg, hgb, hge⟩ := eq_sum_of_mem_powerRest h hem hmem
  rcases hall g hg with rfl | hnum
  · exact ⟨eq_of_smul_exponent (isFactor_of_mem h _ hf) hge he, Expr.sum.inj (hgb.symm.trans hb)⟩
  · rw [hgb] at hnum
    cases hnum

/-- A sum other than that of an expression with a spreading power is no base in its other powers. -/
theorem exponentAt_eq_zero_of_spread (h : a.IsStable) (hk : k ≠ 0) (hexp : ¬a.ExpandsAt k)
    (hone : powerRest k a = [.sum ts]) (hne : .sum ts ≠ Expr.sum us) (hus : (Expr.sum us).IsSettled)
    (hp : IsPowerOf a m p) : exponentAt (.sum us) p.factors = 0 := by
  obtain ⟨f, hf, hb, -, hall⟩ := base_of_spread h hk hexp hone
  refine exponentAt_eq_zero fun g hg => ?_
  obtain ⟨hfactor, f', hf', -, hgb⟩ := (factors_powerRest h hp.raised).1 g (hp.rest.mem_iff.mp hg)
  rw [← Bool.not_eq_true, hfactor.settled_base.same_iff_eq hus]
  intro hsame
  rw [hgb] at hsame
  rcases hall f' hf' with rfl | hnum
  · exact hne (hb.symm.trans hsame)
  · rw [hsame] at hnum
    cases hnum

/-- A power that spreads is a multiple of the sum, and another sum. -/
theorem exists_spread_power (h : a.IsStable) (h0 : a ≠ num 0) (hexp : ¬a.ExpandsAt k)
    (hs : spread? (powerRational k a) (powerRest k a) = some ts) :
    ∃ us, power a (num k) = .ok (.sum us) ∧ (Expr.sum us).IsStable ∧ Expr.sum ts ≠ .sum us := by
  obtain ⟨hone, hc0, hc1⟩ := spread?_eq_some_iff.mp hs
  have hmem : .sum ts ∈ powerRest k a := hone ▸ List.mem_singleton.mpr rfl
  have hsum := ((factors_powerRest h (isRaised_of_mem h hexp)).1 _ hmem).1.stable
  obtain ⟨us, hus, hs, husc⟩ := exists_multiple_sum hsum hc0
  refine ⟨us, ?_, hs, sum_ne_of_coordinates hsum.settled hc1 husc⟩
  rw [power_eq_distribute h h0 hexp, hone, ← product_num_sum hsum hc0, hus]

/-- A sum is its only base. -/
theorem eq_of_mem_basesOf_sum (h : (Expr.sum us).IsStable)
    (hb : b ∈ basesOf (Expr.sum us).factors) :
    b = .sum us := by
  obtain ⟨g, hg, rfl⟩ := (mem_basesOf (AreStable.factors h).areFactors).mp hb
  rw [List.mem_singleton.mp (Expr.mem_of_mem_nonNumbers hg)]
  rfl

/-- The exponent of a sum in it is one. -/
theorem exponentAt_sum (us : List Expr) :
    exponentAt (.sum us) (Expr.sum us).factors = (num 1).coordinates :=
  exponentAt_base rfl rfl

/-- What meets the sum that a rational was distributed over in a product: a stable expression other
than zero without products as bases, in which the sum has a natural number as exponent. -/
structure MeetsSum (us : List Expr) (u : Expr) : Prop where
  stable : u.IsStable
  ne_zero : u ≠ num 0
  exponent : ∃ j : ℕ, exponentAt (.sum us) u.factors = (num j).coordinates
  bases : ∀ b ∈ basesOf u.factors, b.isProduct = false

/-- Beside a power that is a rational distributed over a sum, the others do not have the sum as a
base, or they are the same power. -/
theorem meetsSum_power (h : a.IsStable) (h0 : a ≠ num 0) (hm : m ≠ 0) (hem : ¬a.ExpandsAt m)
    (hen : ¬a.ExpandsAt n) (hone : powerRest m a = [.sum ts]) (hne : .sum ts ≠ Expr.sum us)
    (hus : (Expr.sum us).IsStable) (hp : power a (num m) = .ok (.sum us))
    (hu : power a (num n) = .ok u) :
    MeetsSum us u := by
  cases hs : spread? (powerRational n a) (powerRest n a) with
  | none =>
    have hpn := isPowerOf_of_spread_eq_none h h0 hen hs hu
    refine ⟨hpn.stable, hpn.ne_zero h h0, ⟨0, ?_⟩, fun b hb => ?_⟩
    · rw [exponentAt_eq_zero_of_spread h hm hem hone hne hus.settled hpn, Nat.cast_zero,
        coordinates_zero]
    · obtain ⟨f, hf, hfb, -, hall⟩ := base_of_spread h hm hem hone
      obtain ⟨g, hg, rfl⟩ := List.mem_map.mp (hpn.mem_basesOf h hb)
      rcases hall g hg with rfl | hnum
      · rw [hfb]
        rfl
      · obtain ⟨q, hq⟩ := Expr.exists_eq_num hnum
        rw [hq]
        rfl
  | some vs =>
    have hmem : Expr.sum vs ∈ powerRest n a :=
      (spread?_eq_some_iff.mp hs).1 ▸ List.mem_singleton.mpr rfl
    obtain ⟨rfl, -⟩ := eq_of_sum_mem_powerRest h hm hem hone hen hmem
    obtain rfl := Except.ok.inj (hp.symm.trans hu)
    refine ⟨hus, by simp, ⟨1, ?_⟩, fun b hb => ?_⟩
    · rw [exponentAt_sum, Nat.cast_one]
    · rw [eq_of_mem_basesOf_sum hus hb]
      rfl

/-- The product of a sum and what meets it has the sum as a base, unless it is a sum itself. -/
theorem exponentAt_ne_zero_of_meetsSum (hus : (Expr.sum us).IsStable) (hu : MeetsSum us u)
    (hprod : product [.sum us, u] = .ok r) (hd : r.HasDistinctBases) (hr0 : r ≠ num 0)
    (hsum : r.isSum = false) :
    exponentAt (.sum us) r.factors ≠ 0 := by
  have hstable := (AreStable.factors hus).append (AreStable.factors hu.stable)
  have hc0 : coefficientOf ((Expr.sum us).factors ++ u.factors) ≠ 0 := by
    rw [coefficientOf_append]
    exact mul_ne_zero (coefficient_ne_zero hus.settled (by simp))
      (coefficient_ne_zero hu.stable.settled hu.ne_zero)
  obtain ⟨hcons, hcomes⟩ :=
    consistsOf_of_not_isSum hstable (multipliesTo_pair hus hu.stable hc0 hprod hd) hr0 hsum
    fun b hb _ _ _ => by
      rcases (mem_basesOf_append (AreStable.factors hus) (.factors hu.stable)).mp hb with hb | hb
      · rw [eq_of_mem_basesOf_sum hus hb]
        rfl
      · exact hu.bases b hb
  obtain ⟨j, hj⟩ := hu.exponent
  have htotal : totalExponent (.sum us) ((Expr.sum us).factors ++ u.factors) = num (1 + j) :=
    (AreStable.factors hus).totalExponent_append (.factors hu.stable) (exponentAt_sum us) hj
  have hj0 : (1 + j : Rat) ≠ 0 := by positivity
  have hmem : Expr.sum us ∈ basesOf ((Expr.sum us).factors ++ u.factors) :=
    (mem_basesOf hstable.areFactors).mpr ⟨_, List.mem_cons_self, rfl⟩
  rw [hcons.exponentAt_eq hstable hus.settled]
  cases hcomes _ hmem with
  | one he => exact absurd (Expr.num.inj (htotal.symm.trans he)) hj0
  | number q x hb => cases hb
  | factor hg hb he =>
    rw [leftover, hg.nonNumbers_factors, exponentAt_base hg.not_isNum hb, he, htotal]
    exact coordinates_num_ne_zero hj0

/-- If a power is a rational distributed over a sum, it does not multiply with another to the power
to the sum of the exponents. -/
theorem product_ne_of_spreadsAt (h : a.IsStable) (h0 : a ≠ num 0) (hm : m ≠ 0) (hn : n ≠ 0)
    (hem : ¬a.ExpandsAt m) (hen : ¬a.ExpandsAt n) (hes : ¬a.ExpandsAt (m + n)) (hs : a.SpreadsAt m)
    (hp : power a (num m) = .ok p) (hu : power a (num n) = .ok u)
    (hr : power a (num (m + n : ℤ)) = .ok r) : product [p, u] ≠ .ok r := by
  intro hprod
  obtain ⟨ts, hspread⟩ := spread_of_spreadsAt h h0 hm hem hs
  have hone := (spread?_eq_some_iff.mp hspread).1
  obtain ⟨us, hp', hps, hne⟩ := exists_spread_power h h0 hem hspread
  obtain rfl := Except.ok.inj (hp'.symm.trans hp)
  -- The power to the sum of the exponents is not distributed, and does not have the new sum as a
  -- base.
  have hrest : ∀ vs, .sum vs ∉ powerRest (m + n) a := by
    intro vs hvs
    have := (eq_of_sum_mem_powerRest h hm hem hone hes hvs).1
    omega
  have hnone := spread_eq_none fun vs hvs => hrest vs (hvs ▸ List.mem_singleton.mpr rfl)
  have hpr := isPowerOf_of_spread_eq_none h h0 hes hnone hr
  exact exponentAt_ne_zero_of_meetsSum hps (meetsSum_power h h0 hm hem hen hone hne hps hp hu) hprod
    hpr.stable.distinct (hpr.ne_zero h h0) (hpr.isSum_eq_false hrest)
    (exponentAt_eq_zero_of_spread h hm hem hone hne hps.settled hpr)

/-! ## The exact condition -/

/-- A power that expands nothing exists, and is stable. -/
theorem exists_stable_power (h : a.IsStable) (h0 : a ≠ num 0) (hexp : ¬a.ExpandsAt k) :
    ∃ p, power a (num k) = .ok p ∧ p.IsStable := by
  cases hs : spread? (powerRational k a) (powerRest k a) with
  | none =>
    obtain ⟨p, hp, hps, -⟩ := exists_power h h0 hexp hs
    exact ⟨p, hp, hps⟩
  | some ts =>
    obtain ⟨us, hp, hps, -⟩ := exists_spread_power h h0 hexp hs
    exact ⟨_, hp, hps⟩

/-- A power that expands nothing is stable. -/
theorem isStable_power (h : a.IsStable) (h0 : a ≠ num 0) (hexp : ¬a.ExpandsAt k)
    (hp : power a (num k) = .ok p) :
    p.IsStable := by
  obtain ⟨p', hp', hps⟩ := exists_stable_power h h0 hexp
  exact Except.ok.inj (hp'.symm.trans hp) ▸ hps

/-- A clash is one in the other order, too. -/
theorem powersClash_comm : a.PowersClash m n → a.PowersClash n m := by
  rintro (⟨e, h, hm, hmn⟩ | ⟨q, x, h, hc⟩ | ⟨hm, hn, h⟩)
  · exact .zero e h (by omega) (by omega)
  · exact .root q x h hc.symm
  · exact .sum hn hm h.symm

/-- The zeroth power does not clash. -/
theorem not_powersClash_zero : ¬a.PowersClash 0 n := by
  have hzero : ∀ x : Rat, x * (0 : ℤ) = 0 := fun x => by rw [Int.cast_zero, mul_zero]
  rintro (⟨-, -, hm, -⟩ | ⟨q, x, -, ⟨-, hden, -⟩ | ⟨-, -, hno⟩⟩ | ⟨hm, -, -⟩)
  · exact hm rfl
  · exact hden (by rw [hzero]; rfl)
  · exact hno ⟨|q|, by simp⟩
  · exact hm rfl

/-- The zeroth power and another multiply to the other. -/
theorem product_power_zero (h : a.IsStable) (h0 : a ≠ num 0) (hen : ¬a.ExpandsAt n)
    (hp : power a (num (0 : ℤ)) = .ok p) (hu : power a (num n) = .ok u)
    (hr : power a (num (0 + n : ℤ)) = .ok r) : product [p, u] = .ok r := by
  rw [Int.cast_zero, power_num_zero h0] at hp
  rw [zero_add, hu] at hr
  rw [← Except.ok.inj hp, ← Except.ok.inj hr]
  exact product_num_one (isStable_power h h0 hen hu)

/-- Powers that clash do not multiply to the power to the sum of the exponents. -/
theorem product_ne_of_powersClash (h : a.IsStable) (h0 : a ≠ num 0) (hm : m ≠ 0) (hn : n ≠ 0)
    (hem : ¬a.ExpandsAt m) (hen : ¬a.ExpandsAt n) (hes : ¬a.ExpandsAt (m + n))
    (hclash : a.PowersClash m n) (hp : power a (num m) = .ok p) (hu : power a (num n) = .ok u)
    (hr : power a (num (m + n : ℤ)) = .ok r) : product [p, u] ≠ .ok r := by
  intro hprod
  have hps := isStable_power h h0 hem hp
  have hus := isStable_power h h0 hen hu
  have hsm : ¬a.SpreadsAt m :=
    fun hs => product_ne_of_spreadsAt h h0 hm hn hem hen hes hs hp hu hr hprod
  have hsn : ¬a.SpreadsAt n := fun hs => by
    refine product_ne_of_spreadsAt h h0 hn hm hen hem (add_comm m n ▸ hes) hs hu hp
      (add_comm m n ▸ hr) ?_
    exact product_perm (by simpa using ⟨hps.settled, hus.settled⟩) (.swap _ _ _) hprod
  have hpm := isPowerOf_of_not_spreadsAt h h0 hem hsm hp
  have hpn := isPowerOf_of_not_spreadsAt h h0 hen hsn hu
  have hc0 : coefficientOf (p.factors ++ u.factors) ≠ 0 := by
    rw [coefficientOf_append]
    exact mul_ne_zero (hpm.coefficient_ne_zero h h0) (hpn.coefficient_ne_zero h h0)
  have hmult := multipliesTo_pair hps hus hc0 hprod (isStable_power h h0 hes hr).distinct
  cases hclash with
  | zero e he hm hmn => exact not_multipliesTo_zero h hem hen hpm hpn he hm hmn hmult
  | root q x hf hc =>
    rcases hc with hc | hc
    · exact not_multipliesTo_roots h h0 hem hen hes hpm hpn hr hf hc hmult
    · refine not_multipliesTo_roots h h0 hen hem (add_comm m n ▸ hes) hpn hpm
        (add_comm m n ▸ hr) hf hc ?_
      exact hmult.perm ((AreStable.factors hps).append (.factors hus)) List.perm_append_comm
  | sum _ _ hs => exact hs.elim hsm hsn

/-- Powers of a stable expression that expand nothing multiply to the power to the sum of the
exponents exactly if they do not clash. -/
theorem product_powers_iff (h : a.IsStable) (h0 : a ≠ num 0) (hem : ¬a.ExpandsAt m)
    (hen : ¬a.ExpandsAt n) (hes : ¬a.ExpandsAt (m + n)) (hp : power a (num m) = .ok p)
    (hu : power a (num n) = .ok u) (hr : power a (num (m + n : ℤ)) = .ok r) :
    product [p, u] = .ok r ↔ ¬a.PowersClash m n := by
  by_cases hm : m = 0
  · subst hm
    exact ⟨fun _ => not_powersClash_zero, fun _ => product_power_zero h h0 hen hp hu hr⟩
  by_cases hn : n = 0
  · subst hn
    refine ⟨fun _ hc => not_powersClash_zero (powersClash_comm hc), fun _ => ?_⟩
    have hsettled := (isStable_power h h0 hem hp).settled
    refine product_perm
      (by simpa using ⟨(isStable_power h h0 hen hu).settled, hsettled⟩) (.swap _ _ _) ?_
    exact product_power_zero h h0 hem hu hp (add_comm m 0 ▸ hr)
  refine ⟨fun hprod hclash =>
    product_ne_of_powersClash h h0 hm hn hem hen hes hclash hp hu hr hprod, fun hno => ?_⟩
  exact (product_powers h h0 hm hn hem hen hno hp hu hr (isStable_power h h0 hes hr).distinct).2 hes

end StackAlgebra.Canonical
