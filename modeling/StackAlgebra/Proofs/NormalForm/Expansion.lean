import StackAlgebra.Proofs.NormalForm.NestedPower

/-!
# Products that expand others

A product is determined by the coefficient and the exponents of what it multiplies
(`product_congr_exponents`). Where the exponents of a product as a base add up to an integer its
power is expanded. Whether that is done before or while the product is formed makes no difference,
if the factors that come of it have neither numbers nor products as bases
(`ExpandsTo.multipliesTo_iff`, `multipliesTo_expandAt`): their exponents just add to those of the
other factors.

So the product of two expressions, multiplied by a third, comes to what all their factors come to at
once, where the first product evaluates nothing that the third factor would have changed
(`IsHarmless`, `leadsTo_of_isHarmless`). Where neither of the two orders of multiplication does any
harm they agree (`product_assoc`).
-/

namespace StackAlgebra.Canonical

open StackAlgebra.Expr (num nonNumbers isNum coefficientOf coordinates HasDistinctBases)
open scoped List

variable {a b c m p r β : Expr} {fs gs ms ns rs B L : List Expr} {q : Rat} {k : ℤ}

/-! ## Products of merged powers -/

/-- A merged power is expanded exactly if a base comes to a product. -/
theorem expanded_iff (h : AreFactors fs) (hm : ∀ f ∈ fs, f.IsMeasured) (hB : Covers B fs)
    (hpow : ∀ b ∈ basesOf fs, power b (totalExponent b fs) = .ok (mergedPower fs b)) :
    Expanded (powersOf fs) ((basesOf fs).map (mergedPower fs)) ↔
      ∃ b ∈ B, (mergedPower fs b).isProduct = true := by
  constructor
  · rintro ⟨-, hany⟩
    obtain ⟨m, hm, hprod⟩ := List.any_eq_true.mp hany
    obtain ⟨b, hb, rfl⟩ := List.mem_map.mp (Expr.mem_of_mem_nonNumbers hm)
    exact ⟨b, hB.bases b hb, hprod⟩
  · rintro ⟨b, hb, hprod⟩
    by_contra hexp
    have hms := (forall₂_mergePower_iff h hm).mpr (forall₂_mergedPower_iff.mpr hpow)
    -- A base that no factor has comes to one, which is no product.
    have hmem : b ∈ basesOf fs := by
      by_contra hmem
      rw [mergedPower_of_zero (totalExponent_of_not_mem h (hB.settled b hb) hmem)] at hprod
      cases hprod
    have hnon : mergedPower fs b ∈ nonNumbers ((basesOf fs).map (mergedPower fs)) := by
      refine List.mem_filter.mpr ⟨List.mem_map_of_mem hmem, ?_⟩
      cases hn : mergedPower fs b with
      | num q =>
        rw [hn] at hprod
        cases hprod
      | _ => rfl
    rw [not_isProduct_of_not_expanded h hms hexp _ hnon] at hprod
    cases hprod

/-- The factors of measured expressions are measured. -/
theorem isMeasured_opened (h : ∀ f ∈ fs, f.IsSettled ∧ f.IsMeasured) :
    ∀ g ∈ opened fs, g.IsMeasured := by
  intro g hg
  obtain ⟨f, hf, hg⟩ :=
    List.mem_flatMap.mp ((opened_perm_factors fun f hf => (h f hf).1).mem_iff.mp hg)
  exact isMeasured_factors (h f hf).2 g hg

/-- The bases of factors that are put together are enough for both. -/
theorem Covers.append (hf : AreFactors fs) (hg : AreFactors gs) :
    Covers (basesOf (fs ++ gs)) fs ∧ Covers (basesOf (fs ++ gs)) gs := by
  have hall : AreFactors (fs ++ gs) := List.forall_mem_append.mpr ⟨hf, hg⟩
  have hself := Covers.self hall
  refine ⟨⟨hself.nodup, hself.settled, fun b hb => ?_⟩, hself.nodup, hself.settled, fun b hb => ?_⟩
  · obtain ⟨f, hmem, hfb⟩ := (mem_basesOf hf).mp hb
    exact (mem_basesOf hall).mpr
      ⟨f, Expr.nonNumbers_append fs gs ▸ List.mem_append_left _ hmem, hfb⟩
  · obtain ⟨g, hmem, hgb⟩ := (mem_basesOf hg).mp hb
    exact (mem_basesOf hall).mpr
      ⟨g, Expr.nonNumbers_append fs gs ▸ List.mem_append_right _ hmem, hgb⟩

/-- Factors whose products are the same: they have the same coefficient and the same exponents, and
zero as a base or not. -/
structure SameExponents (fs gs : List Expr) : Prop where
  coefficient : coefficientOf fs = coefficientOf gs
  exponent : ∀ β, β.IsSettled → exponentAt β fs = exponentAt β gs
  zero : num 0 ∈ basesOf fs ↔ num 0 ∈ basesOf gs

/-- The same exponents the other way round. -/
theorem SameExponents.symm (h : SameExponents fs gs) : SameExponents gs fs :=
  ⟨h.coefficient.symm, fun β hβ => (h.exponent β hβ).symm, h.zero.symm⟩

namespace SameExponents

section

variable (hs : SameExponents fs gs) (hf : AreFactors fs) (hfm : ∀ f ∈ fs, f.IsMeasured)
  (hg : AreFactors gs) (hgm : ∀ g ∈ gs, g.IsMeasured)

include hs hf hfm hg hgm

/-- Every base comes to the same among both. -/
theorem mergedPower_eq (hβ : β.IsSettled) :
    totalExponent β gs = totalExponent β fs ∧ mergedPower gs β = mergedPower fs β := by
  have htotal := totalExponent_eq hg hgm hf hfm (hs.exponent β hβ).symm
  exact ⟨htotal, by rw [mergedPower, mergedPower, htotal]⟩

/-- If the powers of the bases exist among the one, they exist among the other. -/
theorem power_eq (hpow : ∀ b ∈ basesOf fs, power b (totalExponent b fs) = .ok (mergedPower fs b)) :
    ∀ β ∈ basesOf gs, power β (totalExponent β gs) = .ok (mergedPower gs β) := by
  intro β hβ
  have hsettled := settled_of_mem_basesOf hg hβ
  obtain ⟨htotal, hmerged⟩ := hs.mergedPower_eq hf hfm hg hgm hsettled
  by_cases hmem : β ∈ basesOf fs
  · rw [htotal, hmerged, hpow β hmem]
  · -- A base of the one alone has the exponent zero, and is not zero itself.
    have hzero := htotal.trans (totalExponent_of_not_mem hf hsettled hmem)
    rw [mergedPower_of_zero hzero, hzero]
    refine power_num_zero ?_
    rintro rfl
    exact hmem (hs.zero.mpr hβ)

/-- The merged powers have the same rational and the same factors. -/
theorem contents_eq
    (hpow : ∀ b ∈ basesOf fs, power b (totalExponent b fs) = .ok (mergedPower fs b)) :
    coefficientOf (((basesOf gs).map (mergedPower gs)).flatMap Expr.factors) =
        coefficientOf (((basesOf fs).map (mergedPower fs)).flatMap Expr.factors) ∧
      nonNumbers (((basesOf fs).map (mergedPower fs)).flatMap Expr.factors) ~
        nonNumbers (((basesOf gs).map (mergedPower gs)).flatMap Expr.factors) := by
  have hmerged (β : Expr) (hβ : β.IsSettled) := (hs.mergedPower_eq hf hfm hg hgm hβ).2
  have hpow' := hs.power_eq hf hfm hg hgm hpow
  obtain ⟨hall, hall'⟩ := Covers.append hf hg
  obtain ⟨hc, hn⟩ := contents_merged hf hall (forall₂_mergedPower_iff.mpr hpow)
  obtain ⟨hc', hn'⟩ := contents_merged hg hall' (forall₂_mergedPower_iff.mpr hpow')
  constructor
  · rw [hc, hc']
    refine congrArg List.prod (List.map_congr_left fun β hβ => ?_)
    rw [rationalPart, rationalPart, hmerged β (hall.settled β hβ)]
  · refine hn.trans (.trans (.of_eq (List.flatMap_congr fun β hβ => ?_)) hn'.symm)
    rw [leftover, leftover, hmerged β (hall.settled β hβ)]

/-- The merged powers are expanded in both or in neither. -/
theorem expanded_iff
    (hpow : ∀ b ∈ basesOf fs, power b (totalExponent b fs) = .ok (mergedPower fs b)) :
    Expanded (powersOf gs) ((basesOf gs).map (mergedPower gs)) ↔
      Expanded (powersOf fs) ((basesOf fs).map (mergedPower fs)) := by
  have hpow' := hs.power_eq hf hfm hg hgm hpow
  obtain ⟨hall, hall'⟩ := Covers.append hf hg
  rw [Canonical.expanded_iff hg hgm hall' hpow', Canonical.expanded_iff hf hfm hall hpow]
  refine exists_congr fun β => and_congr_right fun hβ => ?_
  rw [(hs.mergedPower_eq hf hfm hg hgm (hall.settled β hβ)).2]

end

end SameExponents

/-- A product is determined by the coefficient and the exponents of the factors of its factors. -/
theorem product_congr_exponents (hfs : ∀ f ∈ fs, f.IsSettled ∧ f.IsMeasured)
    (hgs : ∀ g ∈ gs, g.IsSettled ∧ g.IsMeasured)
    (hs : SameExponents (opened fs) (opened gs)) (h : product fs = .ok r) : product gs = .ok r := by
  have hf := areFactors_opened fun f hf => (hfs f hf).1
  have hg := areFactors_opened fun g hg => (hgs g hg).1
  have hfm := isMeasured_opened hfs
  have hgm := isMeasured_opened hgs
  rcases merged_of_product_eq_ok h with ⟨h0, rfl⟩ | ⟨h0, ms, hms, hr⟩
  · rw [product_eq, if_pos (hs.coefficient.symm.trans h0)]
  have hms' := (forall₂_mergePower_iff hf hfm).mp hms
  obtain rfl := merged_eq_map hms'
  have hpow := forall₂_mergedPower_iff.mp hms'
  have hns := (forall₂_mergePower_iff hg hgm).mpr
    (forall₂_mergedPower_iff.mpr (hs.power_eq hf hfm hg hgm hpow))
  rw [product_eq_multiply (hs.coefficient.symm.trans_ne h0) hns, ← hs.coefficient]
  -- The merged powers have the same contents, and both are multiplied once more or neither is.
  obtain ⟨hc, hn⟩ := hs.contents_eq hf hfm hg hgm hpow
  have hexp := hs.expanded_iff hf hfm hg hgm hpow
  have hsettled := settled_merged hf hms
  have hsettled' := settled_merged hg hns
  by_cases he : Expanded (powersOf (opened fs))
    ((basesOf (opened fs)).map (mergedPower (opened fs)))
  · rw [multiply_of_expanded hsettled he] at hr
    rw [multiply_of_expanded hsettled' (hexp.mpr he)]
    have hnum := Expr.settled_num (coefficientOf (opened fs))
    exact product_congr_factors (List.forall_mem_cons.mpr ⟨hnum, hsettled⟩)
      (List.forall_mem_cons.mpr ⟨hnum, hsettled'⟩)
      (congrArg (coefficientOf (opened fs) * ·) hc) hn hr
  · have he' := mt hexp.mp he
    rw [multiply_of_not_expanded he (not_isProduct_of_not_expanded hf hms he)] at hr
    rw [multiply_of_not_expanded he' (not_isProduct_of_not_expanded hg hns he'), hc, ← hr]
    refine distribute_perm (fun f hf => ?_) hn.symm
    obtain ⟨m, hm, hf⟩ := List.mem_flatMap.mp (Expr.mem_of_mem_nonNumbers hf)
    exact (hsettled' m hm).factors f hf

/-! ## Expanding one base -/

/-- What is no base of the factors has no exponent among them. -/
theorem exponentAt_of_not_mem (h : AreFactors fs) (hβ : β.IsSettled) (hn : β ∉ basesOf fs) :
    exponentAt β fs = 0 := by
  rw [← coordinates_totalExponent h, totalExponent_of_not_mem h hβ hn, coordinates_zero]

/-- The exponents of a base among the factors of expressions, one by one. -/
theorem exponentAt_flatMap_eq_sum (β : Expr) (F : Expr → List Expr) (B : List Expr) :
    exponentAt β (B.flatMap F) = (B.map fun b => exponentAt β (F b)).sum := by
  induction B with
  | nil => rfl
  | cons b B ih => rw [List.flatMap_cons, exponentAt_append, ih, List.map_cons, List.sum_cons]

/-- The factors `gs` of the base `b` come to `m`, whose bases are neither numbers nor products,
while `b` is one of these and no base of the other factors `rs`. -/
structure ExpandsTo (gs rs : List Expr) (b m : Expr) : Prop where
  isFactor : ∀ g ∈ gs, IsFactor g ∧ g.base = b
  rest : AreStable rs
  settled : b.IsSettled
  evaluable : isEvaluable b = true
  not_mem : b ∉ basesOf rs
  eq_power : power b (totalExponent b gs) = .ok m
  stable : m.IsStable
  plain : ∀ g ∈ nonNumbers m.factors, isEvaluable g.base = false

namespace ExpandsTo

/-- The factors that are expanded are stable. -/
theorem areStable (h : ExpandsTo gs rs b m) : AreStable (gs ++ rs) ∧ AreStable (m.factors ++ rs) :=
  ⟨.append (fun g hg => ⟨(h.isFactor g hg).1.stable, (h.isFactor g hg).1.not_isProduct⟩) h.rest,
    .append (.factors h.stable) h.rest⟩

/-- Other bases have the exponents in the other factors. -/
theorem exponentAt_before (h : ExpandsTo gs rs b m) (hβ : β.IsSettled) (hne : β ≠ b) :
    exponentAt β (gs ++ rs) = exponentAt β rs := by
  rw [exponentAt_append, exponentAt_eq_zero, zero_add]
  intro g hg
  rw [(h.isFactor g (Expr.mem_of_mem_nonNumbers hg)).2, ← Bool.not_eq_true,
    h.settled.same_iff_eq hβ]
  exact hne.symm

/-- Numbers and products have no exponents in what the base comes to. -/
theorem exponentAt_power (h : ExpandsTo gs rs b m) (hβ : β.IsSettled) (he : isEvaluable β = true) :
    exponentAt β m.factors = 0 := by
  refine exponentAt_eq_zero fun g hg => ?_
  rw [← Bool.not_eq_true, (isFactor_of_mem h.stable g hg).settled_base.same_iff_eq hβ]
  rintro rfl
  rw [h.plain g hg] at he
  cases he

/-- The exponents of the base itself are among its own factors only. -/
theorem totalExponent_base (h : ExpandsTo gs rs b m) :
    totalExponent b (gs ++ rs) = totalExponent b gs ∧ totalExponent b (m.factors ++ rs) =
      num 0 := by
  have hgs : AreStable gs := fun g hg => h.areStable.1 g (List.mem_append_left _ hg)
  have hzero := exponentAt_of_not_mem h.rest.areFactors h.settled h.not_mem
  refine ⟨h.areStable.1.totalExponent_eq hgs ?_, ?_⟩
  · rw [exponentAt_append, hzero, add_zero]
  · rw [h.areStable.2.totalExponent_eq_iff (Expr.settled_num 0), exponentAt_append, hzero,
      h.exponentAt_power h.settled h.evaluable, coordinates_zero, add_zero]

/-- The other bases that are numbers or products come to the same. -/
theorem totalExponent_evaluable (h : ExpandsTo gs rs b m) (hβ : β.IsSettled) (hne : β ≠ b)
    (he : isEvaluable β = true) :
    totalExponent β (m.factors ++ rs) = totalExponent β (gs ++ rs) := by
  refine h.areStable.2.totalExponent_eq h.areStable.1 ?_
  rw [h.exponentAt_before hβ hne, exponentAt_append, h.exponentAt_power hβ he, zero_add]

/-- The base is none of those afterwards. -/
theorem not_mem_after (h : ExpandsTo gs rs b m) : b ∉ basesOf (m.factors ++ rs) := by
  intro hmem
  rcases (mem_basesOf_append (AreStable.factors h.stable) h.rest).mp hmem with hb | hb
  · obtain ⟨g, hg, rfl⟩ := (mem_basesOf (AreStable.factors h.stable).areFactors).mp hb
    have he := h.evaluable
    rw [h.plain g hg] at he
    cases he
  · exact h.not_mem hb

/-- The base and those afterwards are enough for the factors before and after. -/
theorem covers (h : ExpandsTo gs rs b m) : Covers (b :: basesOf (m.factors ++ rs)) (gs ++ rs) ∧
    Covers (b :: basesOf (m.factors ++ rs)) (m.factors ++ rs) := by
  have hself := Covers.self h.areStable.2.areFactors
  have hnodup := List.nodup_cons.mpr ⟨h.not_mem_after, hself.nodup⟩
  have hsettled := List.forall_mem_cons.mpr ⟨h.settled, hself.settled⟩
  refine ⟨⟨hnodup, hsettled, fun β hβ => ?_⟩, hnodup, hsettled, fun β => List.mem_cons_of_mem b⟩
  obtain ⟨f, hf, rfl⟩ := (mem_basesOf h.areStable.1.areFactors).mp hβ
  rw [Expr.nonNumbers_append] at hf
  rcases List.mem_append.mp hf with hf | hf
  · exact (h.isFactor f (Expr.mem_of_mem_nonNumbers hf)).2 ▸ List.mem_cons_self
  · refine List.mem_cons_of_mem b ((mem_basesOf h.areStable.2.areFactors).mpr ⟨f, ?_, rfl⟩)
    exact Expr.nonNumbers_append _ _ ▸ List.mem_append_right _ hf

end ExpandsTo

/-- A base that is neither a number nor a product has its power, which has no rational in front and
at most one factor, with the exponents of the base added up. -/
theorem comes_of_not_evaluable (h : AreStable fs) (hβ : β.IsSettled) (he : isEvaluable β = false) :
    power β (totalExponent β fs) = .ok (mergedPower fs β) ∧ rationalPart fs β = 1 ∧ LeavesOne fs β ∧
      exponentAt β (leftover fs β) = exponentAt β fs := by
  obtain ⟨hn, hp⟩ := Bool.or_eq_false_iff.mp he
  by_cases hmem : β ∈ basesOf fs
  · have hstays := stays_of_base h hmem hn hp
    obtain ⟨hpow, hone, hr⟩ := hstays.spec
    exact ⟨hpow, hr, hone, hstays.exponentAt_leftover h⟩
  · have htotal := totalExponent_of_not_mem h.areFactors hβ hmem
    obtain ⟨hr, hl⟩ := leftover_of_not_mem h hβ hmem
    refine ⟨?_, hr, .inl hl, ?_⟩
    · rw [mergedPower_of_zero htotal, htotal]
      refine power_num_zero ?_
      rintro rfl
      cases hn
    · rw [hl, exponentAt_of_not_mem h.areFactors hβ hmem]
      rfl

/-- Of what is left of one base no other base has an exponent. -/
theorem LeavesOne.exponentAt_eq_zero (h : LeavesOne fs b) (hb : b.IsSettled) (hβ : β.IsSettled)
    (hne : b ≠ β) :
    exponentAt β (leftover fs b) = 0 := by
  rcases h with hnil | ⟨g, hg, hfactor, rfl⟩
  · rw [hnil]
    rfl
  · rw [hg, exponentAt_singleton hfactor.not_isNum, if_neg]
    rwa [hb.same_iff_eq hβ]

/-- The exponents and the base zero of merged powers, in terms of what is left of any bases that are
enough for the factors. -/
theorem exponents_merged (h : AreStable fs) (hB : Covers B fs)
    (hpow : ∀ b ∈ basesOf fs, power b (totalExponent b fs) = .ok (mergedPower fs b)) :
    (∀ β, exponentAt β (opened (num (coefficientOf fs) :: (basesOf fs).map (mergedPower fs))) =
        (B.map fun b => exponentAt β (leftover fs b)).sum) ∧
      (num 0 ∈ basesOf (opened (num (coefficientOf fs) :: (basesOf fs).map (mergedPower fs))) ↔
        ∃ b ∈ B, ∃ f ∈ leftover fs b, f.base = num 0) := by
  have hrest := (opened_merged h hB hpow).2
  have hsettled := MultipliesTo.settled_merged h (forall₂_mergedPower_iff.mpr hpow)
  constructor
  · intro β
    rw [← exponentAt_flatMap_eq_sum]
    exact exponentAt_of_perm hrest
  · rw [mem_basesOf (areFactors_opened hsettled)]
    simp only [hrest.mem_iff, List.mem_flatMap]
    constructor
    · rintro ⟨f, ⟨b, hb, hf⟩, hz⟩
      exact ⟨b, hb, f, hf, hz⟩
    · rintro ⟨b, hb, f, hf, hz⟩
      exact ⟨f, ⟨b, hb, hf⟩, hz⟩

/-- The value of a function at one member of a list without repetitions, as a sum over the list. -/
theorem sum_map_ite [DecidableEq Expr] {M : Type*} [AddCommGroup M] (hB : B.Nodup) (φ : Expr → M)
    (β : Expr) :
    (B.map fun b => if b = β then φ b else 0).sum = if β ∈ B then φ β else 0 := by
  rw [List.sum_map_ite_eq B φ (fun _ => 0) β, List.map_const', List.sum_replicate, smul_zero,
    add_zero, sub_zero]
  split_ifs with hmem
  · rw [List.count_eq_one_of_mem hB hmem, one_smul]
  · rw [List.count_eq_zero_of_not_mem hmem, zero_smul]

namespace ExpandsTo

/-- The power of a base other than the expanded one exists before exactly if it does afterwards. -/
theorem power_iff (h : ExpandsTo gs rs b m) (hβ : β.IsSettled) (hne : β ≠ b) :
    power β (totalExponent β (gs ++ rs)) = .ok (mergedPower (gs ++ rs) β) ↔
      power β (totalExponent β (m.factors ++ rs)) = .ok (mergedPower (m.factors ++ rs) β) := by
  cases he : isEvaluable β with
  | true => rw [mergedPower, mergedPower, h.totalExponent_evaluable hβ hne he]
  | false =>
    exact iff_of_true (comes_of_not_evaluable h.areStable.1 hβ he).1
      (comes_of_not_evaluable h.areStable.2 hβ he).1

/-- The powers of the bases exist before exactly if they do afterwards. -/
theorem powers_iff (h : ExpandsTo gs rs b m) :
    (∀ β ∈ basesOf (gs ++ rs), power β (totalExponent β (gs ++ rs)) =
      .ok (mergedPower (gs ++ rs) β)) ↔ ∀ β ∈ basesOf (m.factors ++ rs),
        power β (totalExponent β (m.factors ++ rs)) = .ok (mergedPower (m.factors ++ rs) β) := by
  have hG := h.areStable.1
  have hgs : AreStable gs := fun g hg => hG g (List.mem_append_left _ hg)
  -- A number or a product among the bases afterwards comes from the other factors, so that it was
  -- among the bases before; any other base has its power in either case.
  constructor
  · intro hpow β hβ
    have hsettled := settled_of_mem_basesOf h.areStable.2.areFactors hβ
    cases he : isEvaluable β with
    | true =>
      refine (h.power_iff hsettled fun hb => h.not_mem_after (hb ▸ hβ)).mp (hpow β ?_)
      refine (mem_basesOf_append hgs h.rest).mpr (.inr ?_)
      refine ((mem_basesOf_append (AreStable.factors h.stable) h.rest).mp hβ).resolve_left
        fun hmem => ?_
      obtain ⟨g, hg, rfl⟩ := (mem_basesOf (AreStable.factors h.stable).areFactors).mp hmem
      rw [h.plain g hg] at he
      cases he
    | false => exact (comes_of_not_evaluable h.areStable.2 hsettled he).1
  · intro hpow β hβ
    by_cases hb : β = b
    · subst hb
      have hm := h.eq_power
      rw [← h.totalExponent_base.1] at hm
      rw [mergedPower_eq hm, hm]
    · refine (h.power_iff (settled_of_mem_basesOf hG.areFactors hβ) hb).mpr (hpow β ?_)
      refine (mem_basesOf_append (AreStable.factors h.stable) h.rest).mpr (.inr ?_)
      refine ((mem_basesOf_append hgs h.rest).mp hβ).resolve_left fun hmem => hb ?_
      obtain ⟨g, hg, rfl⟩ := (mem_basesOf hgs.areFactors).mp hmem
      exact (h.isFactor g (Expr.mem_of_mem_nonNumbers hg)).2

/-- The rational that a base other than the expanded one brings is the same before and
afterwards. -/
theorem rationalPart_eq (h : ExpandsTo gs rs b m) (hβ : β.IsSettled) (hne : β ≠ b) :
    rationalPart (m.factors ++ rs) β = rationalPart (gs ++ rs) β := by
  cases he : isEvaluable β with
  | true =>
    rw [rationalPart, rationalPart, mergedPower, mergedPower, h.totalExponent_evaluable hβ hne he]
  | false =>
    rw [(comes_of_not_evaluable h.areStable.2 hβ he).2.1,
      (comes_of_not_evaluable h.areStable.1 hβ he).2.1]

/-- What is left of a base other than the expanded one has its exponent from the power more
afterwards. -/
theorem exponentAt_leftover [DecidableEq Expr]
    (h : ExpandsTo gs rs b m) {γ : Expr} (hγ : γ.IsSettled) (hβ : β.IsSettled) (hne : β ≠ b) :
    exponentAt γ (leftover (m.factors ++ rs) β) =
      exponentAt γ (leftover (gs ++ rs) β) + if β = γ then exponentAt β m.factors else 0 := by
  cases he : isEvaluable β with
  | true =>
    rw [leftover, leftover, mergedPower, mergedPower, h.totalExponent_evaluable hβ hne he,
      h.exponentAt_power hβ he, ite_self, add_zero]
  | false =>
    obtain ⟨-, -, hone, hleft⟩ := comes_of_not_evaluable h.areStable.1 hβ he
    obtain ⟨-, -, hone', hleft'⟩ := comes_of_not_evaluable h.areStable.2 hβ he
    split_ifs with hβγ
    · subst hβγ
      rw [hleft, hleft', h.exponentAt_before hβ hne, exponentAt_append, add_comm]
    · rw [hone.exponentAt_eq_zero hβ hγ hβγ, hone'.exponentAt_eq_zero hβ hγ hβγ, add_zero]

/-- Zero is left of a base other than the expanded one as a base before exactly if it is
afterwards. -/
theorem zero_leftover_iff (h : ExpandsTo gs rs b m) (hβ : β.IsSettled) (hne : β ≠ b) :
    (∃ f ∈ leftover (m.factors ++ rs) β, f.base = num 0) ↔
      ∃ f ∈ leftover (gs ++ rs) β, f.base = num 0 := by
  cases he : isEvaluable β with
  | true => rw [leftover, leftover, mergedPower, mergedPower, h.totalExponent_evaluable hβ hne he]
  | false =>
    have hno : ∀ fs, LeavesOne fs β → ¬∃ f ∈ leftover fs β, f.base = num 0 := by
      rintro fs hone ⟨f, hf, hz⟩
      obtain ⟨g, hg, -, rfl⟩ := hone.resolve_left (List.ne_nil_of_mem hf)
      rw [hg, List.mem_singleton] at hf
      rw [← hf, hz] at he
      cases he
    exact iff_of_false (hno _ (comes_of_not_evaluable h.areStable.2 hβ he).2.2.1)
      (hno _ (comes_of_not_evaluable h.areStable.1 hβ he).2.2.1)

/-- What the base comes to is what it leaves. -/
theorem mergedPower_base (h : ExpandsTo gs rs b m) : mergedPower (gs ++ rs) b = m := by
  have hm := h.eq_power
  rw [← h.totalExponent_base.1] at hm
  exact mergedPower_eq hm

/-- The bases afterwards are settled, and the expanded one is none of them. -/
theorem settled_ne (h : ExpandsTo gs rs b m) :
    ∀ β ∈ basesOf (m.factors ++ rs), β.IsSettled ∧ β ≠ b := fun _ hβ =>
  ⟨settled_of_mem_basesOf h.areStable.2.areFactors hβ, fun hb => h.not_mem_after (hb ▸ hβ)⟩

/-- The rationals before and afterwards: what the power of the base has in front is among those that
the bases bring before, and among the coefficients afterwards. -/
theorem coefficient_eq (h : ExpandsTo gs rs b m) :
    coefficientOf (gs ++ rs) *
        ((b :: basesOf (m.factors ++ rs)).map (rationalPart (gs ++ rs))).prod =
      coefficientOf (m.factors ++ rs) *
        ((b :: basesOf (m.factors ++ rs)).map (rationalPart (m.factors ++ rs))).prod := by
  have hparts : (basesOf (m.factors ++ rs)).map (rationalPart (m.factors ++ rs)) =
      (basesOf (m.factors ++ rs)).map (rationalPart (gs ++ rs)) :=
    List.map_congr_left fun β hβ => h.rationalPart_eq (h.settled_ne β hβ).1 (h.settled_ne β hβ).2
  have hone : rationalPart (m.factors ++ rs) b = 1 := (leftover_of_zero h.totalExponent_base.2).2
  have hgs := Expr.coefficientOf_of_not_isNum fun g hg => (h.isFactor g hg).1.not_isNum
  rw [List.map_cons, List.map_cons, List.prod_cons, List.prod_cons, hparts, hone, rationalPart,
    h.mergedPower_base, coefficientOf_append, coefficientOf_append, hgs]
  ring

/-- The exponents before and afterwards: those in the power of the base are its own before, and go
to the other bases afterwards. -/
theorem exponent_eq (h : ExpandsTo gs rs b m) {γ : Expr} (hγ : γ.IsSettled) :
    ((b :: basesOf (m.factors ++ rs)).map fun β => exponentAt γ (leftover (gs ++ rs) β)).sum =
      ((b :: basesOf (m.factors ++ rs)).map fun β =>
        exponentAt γ (leftover (m.factors ++ rs) β)).sum := by
  classical
  have hnodup := (Covers.self h.areStable.2.areFactors).nodup
  have hleft : leftover (gs ++ rs) b = nonNumbers m.factors := by
    rw [leftover, h.mergedPower_base]
  have hnil : exponentAt γ (leftover (m.factors ++ rs) b) = 0 := by
    rw [(leftover_of_zero h.totalExponent_base.2).1]
    rfl
  have hparts : ((basesOf (m.factors ++ rs)).map fun β =>
      exponentAt γ (leftover (m.factors ++ rs) β)) = (basesOf (m.factors ++ rs)).map fun β =>
        exponentAt γ (leftover (gs ++ rs) β) + if β = γ then exponentAt β m.factors else 0 :=
    List.map_congr_left fun β hβ =>
      h.exponentAt_leftover hγ (h.settled_ne β hβ).1 (h.settled_ne β hβ).2
  -- Of the terms that come in addition only the one for `γ` is not zero, and there is one exactly
  -- if `γ` is a base afterwards.
  rw [List.map_cons, List.map_cons, List.sum_cons, List.sum_cons, hleft, hnil, zero_add,
    exponentAt_nonNumbers, hparts, List.sum_map_add, sum_map_ite hnodup, add_comm]
  congr 1
  split_ifs with hmem
  · rfl
  · refine exponentAt_of_not_mem (AreStable.factors h.stable).areFactors hγ fun hm => hmem ?_
    exact (mem_basesOf_append (AreStable.factors h.stable) h.rest).mpr (.inl hm)

/-- Zero is left of some base before exactly if it is afterwards. -/
theorem exists_zero_iff (h : ExpandsTo gs rs b m) :
    (∃ β ∈ b :: basesOf (m.factors ++ rs), ∃ f ∈ leftover (gs ++ rs) β, f.base = num 0) ↔
      ∃ β ∈ b :: basesOf (m.factors ++ rs), ∃ f ∈ leftover (m.factors ++ rs) β, f.base = num 0 := by
  rw [List.exists_mem_cons_iff, List.exists_mem_cons_iff]
  refine or_congr (iff_of_false ?_ ?_) ?_
  · rintro ⟨f, hf, hz⟩
    rw [leftover, h.mergedPower_base] at hf
    have hplain := h.plain f hf
    rw [hz] at hplain
    cases hplain
  · rintro ⟨f, hf, -⟩
    rw [(leftover_of_zero h.totalExponent_base.2).1] at hf
    cases hf
  · refine exists_congr fun β => and_congr_right fun hβ => ?_
    exact (h.zero_leftover_iff (h.settled_ne β hβ).1 (h.settled_ne β hβ).2).symm

/-- The merged powers before have the coefficient and the exponents of those afterwards. -/
theorem sameExponents (h : ExpandsTo gs rs b m)
    (hpow : ∀ β ∈ basesOf (gs ++ rs), Canonical.power β (totalExponent β (gs ++ rs)) =
      .ok (mergedPower (gs ++ rs) β)) : SameExponents
        (opened
          (num (coefficientOf (gs ++ rs)) :: (basesOf (gs ++ rs)).map (mergedPower (gs ++ rs))))
        (opened (num (coefficientOf (m.factors ++ rs)) ::
          (basesOf (m.factors ++ rs)).map (mergedPower (m.factors ++ rs)))) := by
  have hpow' := h.powers_iff.mp hpow
  obtain ⟨hbefore, hafter⟩ := h.covers
  obtain ⟨he, hz⟩ := exponents_merged h.areStable.1 hbefore hpow
  obtain ⟨he', hz'⟩ := exponents_merged h.areStable.2 hafter hpow'
  constructor
  · rw [(opened_merged h.areStable.1 hbefore hpow).1, (opened_merged h.areStable.2 hafter hpow').1]
    exact h.coefficient_eq
  · intro γ hγ
    rw [he, he']
    exact h.exponent_eq hγ
  · rw [hz, hz']
    exact h.exists_zero_iff

/-- The factors with the base multiply to what they do with the power in place of it. -/
theorem multipliesTo_iff (h : ExpandsTo gs rs b m) :
    MultipliesTo (gs ++ rs) r ↔ MultipliesTo (m.factors ++ rs) r := by
  have hkind {fs : List Expr} (hfs : AreStable fs)
      (hpow : ∀ β ∈ basesOf fs, Canonical.power β (totalExponent β fs) = .ok (mergedPower fs β)) :
      ∀ f ∈ num (coefficientOf fs) :: (basesOf fs).map (mergedPower fs), f.IsSettled ∧
      f.IsMeasured := by
    have hms := forall₂_mergedPower_iff.mpr hpow
    refine fun f hf => ⟨MultipliesTo.settled_merged hfs hms f hf, ?_⟩
    rcases List.mem_cons.mp hf with rfl | hf
    · exact (Expr.isStable_num _).measured
    · obtain ⟨β, hβ, rfl⟩ := List.mem_map.mp hf
      exact isMeasured_power (hfs.isBase hβ).1.measured (hfs.totalExponent β).measured (hpow β hβ)
  constructor
  · intro hr
    have hG := hr.power_eq
    have hH := h.powers_iff.mp hG
    obtain ⟨ms, hms, hr⟩ := hr
    rw [merged_eq_map hms] at hr
    exact ⟨_, forall₂_mergedPower_iff.mpr hH, product_congr_exponents (hkind h.areStable.1 hG)
      (hkind h.areStable.2 hH) (h.sameExponents hG) hr⟩
  · intro hr
    have hH := hr.power_eq
    have hG := h.powers_iff.mpr hH
    obtain ⟨ms, hms, hr⟩ := hr
    rw [merged_eq_map hms] at hr
    exact ⟨_, forall₂_mergedPower_iff.mpr hG, product_congr_exponents (hkind h.areStable.2 hH)
      (hkind h.areStable.1 hG) (h.sameExponents hG).symm hr⟩

end ExpandsTo

/-! ## Expanding all products -/

/-- The factors with those bases, replaced by what they come to, beside the other factors. -/
def expandAt (L fs : List Expr) : List Expr :=
  (L.map (mergedPower fs)).flatMap Expr.factors ++ fs.filter fun f => !L.any f.base.same

/-- Where no base is replaced the factors stay. -/
theorem expandAt_nil (fs : List Expr) : expandAt [] fs = fs :=
  List.filter_eq_self.mpr fun _ _ => rfl

/-- The base is a product and comes to something whose bases are neither numbers nor products. -/
structure ComesPlainly (fs : List Expr) (b : Expr) : Prop where
  settled : b.IsSettled
  isProduct : b.isProduct = true
  eq_power : power b (totalExponent b fs) = .ok (mergedPower fs b)
  stable : (mergedPower fs b).IsStable
  ne_zero : mergedPower fs b ≠ num 0
  plain : ∀ g ∈ nonNumbers (mergedPower fs b).factors, isEvaluable g.base = false

/-- Some of the stable factors are stable. -/
theorem AreStable.filter (h : AreStable fs) (s : Expr → Bool) : AreStable (fs.filter s) :=
  fun f hf =>
  h f (List.mem_of_mem_filter hf)

/-- Settled bases are among others exactly if one of these is the same. -/
theorem any_same_iff (hβ : β.IsSettled) (hL : ∀ b ∈ L, b.IsSettled) :
    L.any β.same = true ↔ β ∈ L := by
  rw [List.any_eq_true]
  constructor
  · rintro ⟨b, hb, hs⟩
    exact ((hβ.same_iff_eq (hL b hb)).mp hs) ▸ hb
  · exact fun hmem => ⟨β, hmem, Expr.same_self β⟩

/-- The factors without those bases are those with one base and those without that one, either. -/
theorem filter_base_perm (h : AreFactors fs) (hL : ∀ β ∈ b :: L, β.IsSettled) (hb : b ∉ L) :
    (fs.filter fun f => !L.any f.base.same) ~
      (fs.filter fun f => f.base.same b) ++ fs.filter fun f => !(b :: L).any f.base.same := by
  obtain ⟨hsettled, hL⟩ := List.forall_mem_cons.mp hL
  refine (List.filter_append_perm (fun f => f.base.same b) _).symm.trans (.of_eq ?_)
  rw [List.filter_filter, List.filter_filter]
  congr 1
  · refine List.filter_congr fun f hf => ?_
    have hbase : f.base.IsSettled := (h f hf).1.splitPower.1
    cases hs : f.base.same b with
    | false => rfl
    | true =>
      have hfb := (hbase.same_iff_eq hsettled).mp hs
      have hno : L.any f.base.same = false := by
        rw [← Bool.not_eq_true, any_same_iff hbase hL, hfb]
        exact hb
      rw [hno]
      rfl
  · refine List.filter_congr fun f _ => ?_
    rw [List.any_cons, Bool.not_or]

/-- What bases come to plainly are stable factors whose bases are neither numbers nor products. -/
theorem expanded_plain (hL : ∀ b ∈ L, ComesPlainly fs b) :
    AreStable ((L.map (mergedPower fs)).flatMap Expr.factors) ∧
      ∀ g ∈ nonNumbers ((L.map (mergedPower fs)).flatMap Expr.factors),
        isEvaluable g.base = false := by
  constructor
  · refine .flatMap fun m hm => ?_
    obtain ⟨b, hb, rfl⟩ := List.mem_map.mp hm
    exact (hL b hb).stable
  · intro g hg
    rw [nonNumbers_flatMap, List.flatMap_map] at hg
    obtain ⟨b, hb, hg⟩ := List.mem_flatMap.mp hg
    exact (hL b hb).plain g hg

/-- The exponents of a base are among the factors with that base. -/
theorem totalExponent_filter (h : AreStable fs) :
    totalExponent b (fs.filter fun f => f.base.same b) = totalExponent b fs := by
  refine (h.filter _).totalExponent_eq h ?_
  have hsplit := (List.filter_append_perm (fun f => f.base.same b) fs).filter fun f => !f.isNum
  rw [← exponentAt_perm hsplit, exponentAt_append]
  have hother : exponentAt b (fs.filter fun f => !f.base.same b) = 0 := by
    refine exponentAt_eq_zero fun f hf => ?_
    simpa using (List.mem_filter.mp (Expr.mem_of_mem_nonNumbers hf)).2
  rw [hother, add_zero]

/-- The factors with one of the bases are expanded beside the others, in which that base does not
occur. -/
theorem expandsTo_filter (h : AreStable fs) (hL : ∀ β ∈ b :: L, ComesPlainly fs β) (hb : b ∉ L) :
    ExpandsTo (fs.filter fun f => f.base.same b)
      ((L.map (mergedPower fs)).flatMap Expr.factors ++ fs.filter fun f =>
        !(b :: L).any f.base.same) b
      (mergedPower fs b) := by
  obtain ⟨hbp, hLp⟩ := List.forall_mem_cons.mp hL
  have hsettled : ∀ β ∈ b :: L, β.IsSettled := fun β hβ => (hL β hβ).settled
  have hbase : ∀ f ∈ fs, f.base.IsSettled := fun f hf => (h f hf).1.settled.splitPower.1
  have hevaluable : isEvaluable b = true := Bool.or_eq_true_iff.mpr (.inr hbp.isProduct)
  have hrest : b ∉ basesOf (fs.filter fun f => !(b :: L).any f.base.same) := fun hmem => by
    obtain ⟨f, hf, hfb⟩ := (mem_basesOf (h.filter _).areFactors).mp hmem
    obtain ⟨hf, hno⟩ := List.mem_filter.mp (Expr.mem_of_mem_nonNumbers hf)
    rw [(any_same_iff (hbase f hf) hsettled).mpr (hfb ▸ List.mem_cons_self)] at hno
    cases hno
  refine
    { isFactor := fun g hg => ?_
      rest := .append (fun g hg => ?_) (h.filter _)
      settled := hbp.settled
      evaluable := hevaluable
      not_mem := fun hmem => ?_
      eq_power := ?_
      stable := hbp.stable
      plain := hbp.plain }
  · obtain ⟨hmem, hs⟩ := List.mem_filter.mp hg
    obtain rfl := ((hbase g hmem).same_iff_eq hbp.settled).mp hs
    refine ⟨⟨(h g hmem).1, ?_, (h g hmem).2⟩, rfl⟩
    cases hn : g with
    | num q =>
      have hprod := hbp.isProduct
      rw [hn] at hprod
      cases hprod
    | _ => rfl
  · exact (expanded_plain hLp).1 g hg
  · rcases (mem_basesOf_append (expanded_plain hLp).1 (h.filter _)).mp hmem with hmem | hmem
    · obtain ⟨g, hg, rfl⟩ := (mem_basesOf (expanded_plain hLp).1.areFactors).mp hmem
      rw [(expanded_plain hLp).2 g hg] at hevaluable
      cases hevaluable
    · exact hrest hmem
  · rw [totalExponent_filter h]
    exact hbp.eq_power

/-- Factors multiply to the same whether products with plain powers are expanded before or not. -/
theorem multipliesTo_expandAt (h : AreStable fs) (hL : L.Nodup)
    (hplain : ∀ b ∈ L, ComesPlainly fs b) :
    AreStable (expandAt L fs) ∧ (MultipliesTo (expandAt L fs) r ↔ MultipliesTo fs r) := by
  induction L with
  | nil =>
    rw [expandAt_nil]
    exact ⟨h, .rfl⟩
  | cons b L ih =>
    obtain ⟨hb, hnodup⟩ := List.nodup_cons.mp hL
    obtain ⟨hbp, hLp⟩ := List.forall_mem_cons.mp hplain
    obtain ⟨hstable, ih⟩ := ih hnodup hLp
    have hsettled : ∀ β ∈ b :: L, β.IsSettled := fun β hβ => (hplain β hβ).settled
    -- The factors of the base are split off, and what is left has none of them.
    have hsplit : expandAt L fs ~ (fs.filter fun f => f.base.same b) ++
        ((L.map (mergedPower fs)).flatMap Expr.factors ++ fs.filter fun f =>
          !(b :: L).any f.base.same) := by
      refine ((filter_base_perm h.areFactors hsettled hb).append_left _).trans ?_
      rw [← List.append_assoc, ← List.append_assoc]
      exact List.perm_append_comm.append_right _
    have hcons : expandAt (b :: L) fs = (mergedPower fs b).factors ++
        ((L.map (mergedPower fs)).flatMap Expr.factors ++ fs.filter fun f =>
          !(b :: L).any f.base.same) := by
      rw [expandAt, List.map_cons, List.flatMap_cons, List.append_assoc]
    have hexpand : ExpandsTo (fs.filter fun f => f.base.same b)
        ((L.map (mergedPower fs)).flatMap Expr.factors ++ fs.filter fun f =>
          !(b :: L).any f.base.same) b
        (mergedPower fs b) := expandsTo_filter h hplain hb
    rw [hcons]
    refine ⟨hexpand.areStable.2, hexpand.multipliesTo_iff.symm.trans (.trans ?_ ih)⟩
    exact ⟨.perm hexpand.areStable.1 hsplit.symm, .perm hstable hsplit⟩

/-! ## Powers of products -/

/-- The power of the base is expanded in the product of the factors: it is a product, and its
exponents add up to an integer other than zero. -/
def isExpanded (fs : List Expr) (b : Expr) : Bool :=
  b.isProduct && (totalExponent b fs).isInteger && !(totalExponent b fs).isZero

/-- The factors with the powers of products expanded that their product expands. -/
def expansion (fs : List Expr) : List Expr :=
  expandAt ((basesOf fs).filter (isExpanded fs)) fs

/-- An expanded base is a product with an integer other than zero as exponent. -/
theorem isExpanded_iff : isExpanded fs b = true ↔
    ∃ ts, b = .product ts ∧ ∃ k : ℤ, totalExponent b fs = num k ∧ k ≠ 0 := by
  constructor
  · intro h
    obtain ⟨h, hz⟩ := Bool.and_eq_true_iff.mp h
    obtain ⟨hprod, hint⟩ := Bool.and_eq_true_iff.mp h
    cases b with
    | product ts =>
      refine ⟨ts, rfl, ?_⟩
      obtain ⟨x, hx⟩ := Expr.exists_eq_num (Expr.isNum_of_isInteger hint)
      rw [hx] at hint hz
      have hden : x.den = 1 := by simpa [Expr.isInteger] using hint
      refine ⟨x.num, by rw [hx, (Rat.den_eq_one_iff x).mp hden], ?_⟩
      simpa [Expr.isZero] using hz
    | _ => cases hprod
  · rintro ⟨ts, rfl, k, hk, hk0⟩
    rw [isExpanded, hk]
    simpa [Expr.isProduct, Expr.isInteger, Expr.isZero] using hk0

/-- Where no base is expanded the factors stay. -/
theorem expansion_eq_self (h : ∀ β ∈ basesOf fs, isExpanded fs β = false) : expansion fs = fs := by
  have hnil : (basesOf fs).filter (isExpanded fs) = [] := List.filter_eq_nil_iff.mpr fun β hβ => by
    simp [h β hβ]
  rw [expansion, hnil, expandAt_nil]

/-- A whole power of a product whose bases are neither numbers nor products is stable, not zero, and
has none as bases, either. -/
theorem power_of_plain {ts : List Expr} (h : (Expr.product ts).IsStable)
    (hts : ∀ f ∈ nonNumbers ts, isEvaluable f.base = false)
    (hm : power (.product ts) (num k) = .ok m) : m.IsStable ∧ m ≠ num 0 ∧
      ∀ g ∈ nonNumbers m.factors, isEvaluable g.base = false := by
  have h0 : Expr.product ts ≠ num 0 := nofun
  have hexp : ¬(Expr.product ts).ExpandsAt k := by
    rintro ⟨-, f, hf, us, y, rfl, -⟩
    cases hts _ (List.mem_filter.mpr ⟨hf, rfl⟩)
  cases hs : spread? (powerRational k (.product ts)) (powerRest k (.product ts)) with
  | some us =>
    obtain ⟨vs, hvs, hstable, -⟩ := exists_spread_power h h0 hexp hs
    obtain rfl := Except.ok.inj (hm.symm.trans hvs)
    refine ⟨hstable, nofun, fun g hg => ?_⟩
    rw [List.mem_singleton.mp (Expr.mem_of_mem_nonNumbers hg)]
    rfl
  | none =>
    have hpow := isPowerOf_of_spread_eq_none h h0 hexp hs hm
    refine ⟨hpow.stable, hpow.ne_zero h h0, fun g hg => ?_⟩
    have hbase := (mem_basesOf (AreStable.factors hpow.stable).areFactors).mpr ⟨g, hg, rfl⟩
    obtain ⟨f, hf, hfb⟩ := List.mem_map.mp (hpow.mem_basesOf h hbase)
    exact hfb ▸ hts f hf

/-! ## Harmless products -/

/-- In the product of `a` and `b` nothing is evaluated that `c` would have changed. A base that is a
product is expanded only if `c` does not have it, and to factors whose bases are neither numbers nor
products, which might be evaluated in their turn. No power of a number is evaluated that matters to
`c`. No rational is distributed over a sum. -/
structure IsHarmless (a b c : Expr) : Prop where
  product (ts : List Expr) (k : ℤ) (hmem : .product ts ∈ basesOf (a.factors ++ b.factors))
    (h : totalExponent (.product ts) (a.factors ++ b.factors) = num k) :
    k = 0 ∨ .product ts ∉ basesOf c.factors ∧ ∀ f ∈ nonNumbers ts, isEvaluable f.base = false
  number : SparesNumbers (a.factors ++ b.factors) c.factors
  sum (q : Rat) (ts : List Expr) (hmem : .sum ts ∈ basesOf (expansion (a.factors ++ b.factors)))
    (h : totalExponent (.sum ts) (expansion (a.factors ++ b.factors)) = num 1)
    (hp : Canonical.product [num q, .sum ts] = Canonical.product [a, b]) : q = 0 ∨ q = 1

/-- The bases that a harmless product expands come to something whose bases are neither numbers nor
products, and the third factor does not have them. -/
theorem IsHarmless.comesPlainly (h : IsHarmless a b c) (ha : a.IsStable) (hb : b.IsStable)
    (hp : MultipliesTo (a.factors ++ b.factors) p) :
    ∀ β ∈ (basesOf (a.factors ++ b.factors)).filter (isExpanded (a.factors ++ b.factors)),
      ComesPlainly (a.factors ++ b.factors) β ∧ β ∉ basesOf c.factors := by
  intro β hβ
  obtain ⟨hmem, hexp⟩ := List.mem_filter.mp hβ
  obtain ⟨ts, rfl, k, hk, hk0⟩ := isExpanded_iff.mp hexp
  obtain ⟨hc, hplain⟩ := (h.product ts k hmem hk).resolve_left hk0
  have hstable := (((AreStable.factors ha).append (.factors hb)).isBase hmem).1
  have hpow := hp.power_eq _ hmem
  obtain ⟨hm, hm0, hbases⟩ := power_of_plain hstable hplain (hk ▸ hpow)
  exact ⟨⟨hstable.settled, rfl, hpow, hm, hm0, hbases⟩, hc⟩

/-- Numbers and products that are not expanded keep their exponents. -/
theorem totalExponent_expandAt (h : AreStable fs)
    (hL : ∀ b ∈ L, ComesPlainly fs b) (hβ : β.IsSettled) (he : isEvaluable β = true) (hn : β ∉ L) :
    totalExponent β (expandAt L fs) = totalExponent β fs := by
  obtain ⟨hstable, hplain⟩ := expanded_plain hL
  have hLs : ∀ b ∈ L, b.IsSettled := fun b hb => (hL b hb).settled
  refine (hstable.append (h.filter _)).totalExponent_eq h ?_
  have hzero : exponentAt β ((L.map (mergedPower fs)).flatMap Expr.factors) = 0 := by
    refine exponentAt_of_not_mem hstable.areFactors hβ fun hmem => ?_
    obtain ⟨g, hg, rfl⟩ := (mem_basesOf hstable.areFactors).mp hmem
    rw [hplain g hg] at he
    cases he
  have hother : exponentAt β (fs.filter fun f => !!L.any f.base.same) = 0 := by
    refine exponentAt_eq_zero fun f hf => ?_
    obtain ⟨hf, hany⟩ := List.mem_filter.mp (Expr.mem_of_mem_nonNumbers hf)
    have hbase : f.base.IsSettled := (h f hf).1.settled.splitPower.1
    rw [Bool.not_not, any_same_iff hbase hLs] at hany
    rw [← Bool.not_eq_true, hbase.same_iff_eq hβ]
    rintro rfl
    exact hn hany
  have hsplit := (List.filter_append_perm (fun f => !L.any f.base.same) fs).filter fun f => !f.isNum
  rw [← exponentAt_perm hsplit, exponentAt_append, exponentAt_append, hzero, hother, zero_add,
    add_zero]

/-- Numbers and products among the bases after expanding were there before, and are not expanded. -/
theorem mem_basesOf_expandAt (h : AreStable fs) (hL : ∀ b ∈ L, ComesPlainly fs b)
    (he : isEvaluable β = true) (hβ : β ∈ basesOf (expandAt L fs)) : β ∈ basesOf fs ∧ β ∉ L := by
  obtain ⟨hstable, hplain⟩ := expanded_plain hL
  rcases (mem_basesOf_append hstable (h.filter _)).mp hβ with hmem | hmem
  · obtain ⟨g, hg, rfl⟩ := (mem_basesOf hstable.areFactors).mp hmem
    rw [hplain g hg] at he
    cases he
  · obtain ⟨f, hf, rfl⟩ := (mem_basesOf (h.filter _).areFactors).mp hmem
    obtain ⟨hfs, hany⟩ := List.mem_filter.mp (Expr.mem_of_mem_nonNumbers hf)
    have hbase : f.base.IsSettled := (h f hfs).1.settled.splitPower.1
    refine ⟨(mem_basesOf h.areFactors).mpr ⟨f, ?_, rfl⟩, fun hmemL => ?_⟩
    · exact List.mem_filter.mpr ⟨hfs, by simp [Expr.isNum_of_mem_nonNumbers hf]⟩
    · rw [(any_same_iff hbase fun b hb => (hL b hb).settled).mpr hmemL] at hany
      cases hany

/-- The coefficient stays other than zero where bases are expanded. -/
theorem coefficientOf_expandAt_ne_zero (hL : ∀ b ∈ L, ComesPlainly fs b)
    (h0 : coefficientOf fs ≠ 0) :
    coefficientOf (expandAt L fs) ≠ 0 := by
  rw [expandAt, coefficientOf_append]
  refine mul_ne_zero ?_ ?_
  · rw [coefficientOf_flatMap]
    refine List.prod_ne_zero fun hz => ?_
    obtain ⟨m, hm, hz⟩ := List.mem_map.mp hz
    obtain ⟨b, hb, rfl⟩ := List.mem_map.mp hm
    exact coefficient_ne_zero (hL b hb).stable.settled (hL b hb).ne_zero hz
  · rw [← Expr.coefficientOf_perm (List.filter_append_perm (fun f => !L.any f.base.same) fs),
      coefficientOf_append] at h0
    exact left_ne_zero_of_mul h0

/-- With its products expanded a harmless product spares the third factor. -/
theorem IsHarmless.sparesFactors (h : IsHarmless a b c) (ha : a.IsStable) (hb : b.IsStable)
    (hp : Canonical.product [a, b] = .ok p) (hm : MultipliesTo (a.factors ++ b.factors) p) :
    SparesFactors (expansion (a.factors ++ b.factors)) c.factors p := by
  have hf := (AreStable.factors ha).append (AreStable.factors hb)
  have hL := fun β hβ => (h.comesPlainly ha hb hm β hβ).1
  have hkeeps : ∀ β ∈ basesOf (expansion (a.factors ++ b.factors)), isEvaluable β = true →
      β ∈ basesOf (a.factors ++ b.factors) ∧ isExpanded (a.factors ++ b.factors) β = false ∧
        totalExponent β (expansion (a.factors ++ b.factors)) =
          totalExponent β (a.factors ++ b.factors) := by
    intro β hβ he
    obtain ⟨hmem, hn⟩ := mem_basesOf_expandAt hf hL he hβ
    refine ⟨hmem, ?_,
      totalExponent_expandAt hf hL (settled_of_mem_basesOf hf.areFactors hmem) he hn⟩
    rw [← Bool.not_eq_true]
    exact fun hexp => hn (List.mem_filter.mpr ⟨hmem, hexp⟩)
  refine ⟨fun ts k hβ hk => ?_, fun q x hβ hx => ?_,
    fun q ts hβ hone hq => h.sum q ts hβ hone (hq.trans hp.symm)⟩
  · obtain ⟨hmem, hexp, htotal⟩ := hkeeps _ hβ rfl
    by_contra hk0
    rw [isExpanded_iff.mpr ⟨ts, rfl, k, htotal.symm.trans hk, hk0⟩] at hexp
    cases hexp
  · obtain ⟨hmem, -, htotal⟩ := hkeeps _ hβ rfl
    exact h.number q x hmem (htotal.symm.trans hx)

/-- Bases that other factors do not have are expanded beside them as they are without them. -/
theorem expandAt_append {cs : List Expr} (hf : AreStable fs) (hc : AreStable cs)
    (hL : ∀ b ∈ L, ComesPlainly fs b ∧ b ∉ basesOf cs) :
    (∀ b ∈ L, ComesPlainly (fs ++ cs) b) ∧ expandAt L (fs ++ cs) = expandAt L fs ++ cs := by
  have htotal : ∀ b ∈ L, totalExponent b (fs ++ cs) = totalExponent b fs := by
    intro b hb
    obtain ⟨hplain, hn⟩ := hL b hb
    refine (hf.append hc).totalExponent_eq hf ?_
    rw [exponentAt_append, exponentAt_of_not_mem hc.areFactors hplain.settled hn, add_zero]
  have hmerged : ∀ b ∈ L, mergedPower (fs ++ cs) b = mergedPower fs b := fun b hb => by
    rw [mergedPower, mergedPower, htotal b hb]
  constructor
  · intro b hb
    obtain ⟨hsettled, hprod, hpow, hstable, h0, hplain⟩ := (hL b hb).1
    rw [← hmerged b hb] at hpow hstable h0 hplain
    exact ⟨hsettled, hprod, htotal b hb ▸ hpow, hstable, h0, hplain⟩
  · have hkept : (cs.filter fun f => !L.any f.base.same) = cs := by
      refine List.filter_eq_self.mpr fun f hmem => ?_
      have hbase : f.base.IsSettled := (hc f hmem).1.settled.splitPower.1
      rw [Bool.not_eq_true', ← Bool.not_eq_true, any_same_iff hbase fun b hb => (hL b hb).1.settled]
      intro hb
      obtain ⟨hplain, hn⟩ := hL _ hb
      refine hn ((mem_basesOf hc.areFactors).mpr ⟨f, List.mem_filter.mpr ⟨hmem, ?_⟩, rfl⟩)
      cases hnum : f with
      | num q =>
        have hprod := hplain.isProduct
        rw [hnum] at hprod
        cases hprod
      | _ => rfl
    rw [expandAt, List.filter_append, hkept, List.map_congr_left hmerged, ← List.append_assoc]
    rfl

/-- A harmless product, multiplied by a third factor, is what all their factors multiply to. -/
theorem leadsTo_of_isHarmless (ha : a.IsStable) (hb : b.IsStable)
    (hc : c.IsStable) (hp : p.IsStable) (h0 : coefficientOf (a.factors ++ b.factors) ≠ 0)
    (hc0 : coefficientOf c.factors ≠ 0) (habp : product [a, b] = .ok p)
    (hr : product [p, c] = .ok r) (hd : r.HasDistinctBases) (h : IsHarmless a b c) :
    LeadsTo (a.factors ++ b.factors ++ c.factors) r := by
  have hf := (AreStable.factors ha).append (AreStable.factors hb)
  have hcs := AreStable.factors hc
  have hm := multipliesTo_pair ha hb h0 habp hp.distinct
  have hL := h.comesPlainly ha hb hm
  have hplain := fun β hβ => (hL β hβ).1
  have hnodup :=
    (nodup_basesOf (a.factors ++ b.factors)).filter (isExpanded (a.factors ++ b.factors))
  -- With the products expanded first the third factor is spared, and it makes no difference to
  -- expand them first.
  obtain ⟨hstable, hexpand⟩ := multipliesTo_expandAt (r := p) hf hnodup hplain
  have hlead :=
    leadsTo_of_sparesFactors hstable hc hp (coefficientOf_expandAt_ne_zero hplain h0) hc0
    (hexpand.mpr hm) hr hd (h.sparesFactors ha hb habp hm)
  obtain ⟨hplain', happend⟩ := expandAt_append hf hcs hL
  have hall (s : Expr) := (multipliesTo_expandAt (r := s) (hf.append hcs) hnodup hplain').2
  rw [← happend] at hlead
  exact hlead.imp (hall r).mp (And.imp_right fun hz s hs => hz s ((hall s).mpr hs))

/-! ## Associativity -/

/-- Multiplying three stable expressions leads to what all their factors lead to, if the third is a
number or the product of the other two is harmless. -/
theorem leadsTo_product (ha : a.IsStable) (hb : b.IsStable) (hc : c.IsStable) (hp : p.IsStable)
    (h0 : coefficientOf (a.factors ++ b.factors ++ c.factors) ≠ 0) (habp : product [a, b] = .ok p)
    (hr : product [p, c] = .ok r) (hd : r.HasDistinctBases)
    (h : c.isNum = true ∨ IsHarmless a b c) :
    LeadsTo (a.factors ++ b.factors ++ c.factors) r := by
  rw [coefficientOf_append] at h0
  have hab0 := left_ne_zero_of_mul h0
  have hc0 := right_ne_zero_of_mul h0
  rcases h with h | h
  · exact leadsTo_of_isNum ha hb hc hp hab0 hc0 habp hr hd h
  · exact leadsTo_of_isHarmless ha hb hc hp hab0 hc0 habp hr hd h

/-- Multiplying three expressions of which one is zero leads to zero. -/
theorem eq_zero_of_coefficient (ha : a.IsSettled) (hb : b.IsSettled) (hc : c.IsSettled)
    (hp : p.IsSettled) (h0 : coefficientOf (a.factors ++ b.factors ++ c.factors) = 0)
    (habp : product [a, b] = .ok p) (hr : product [p, c] = .ok r) : r = num 0 := by
  have hcoef : coefficientOf ([p, c].flatMap Expr.factors) = 0 := by
    rw [flatMap_factors_pair, coefficientOf_append]
    rw [coefficientOf_append] at h0
    rcases mul_eq_zero.mp h0 with h0 | h0
    · have hzero : product [a, b] = .ok (num 0) := by
        refine product_eq_zero (by simpa using ⟨ha, hb⟩) ?_
        rw [flatMap_factors_pair, h0]
      rw [Except.ok.inj (habp.symm.trans hzero)]
      exact mul_eq_zero_of_left (zero_mul 1) _
    · rw [h0, mul_zero]
  exact Except.ok.inj (hr.symm.trans (product_eq_zero (by simpa using ⟨hp, hc⟩) hcoef))

/-- The two ways to multiply three stable expressions come to the same, where each is a product with
a number or begins with a harmless product. -/
theorem product_assoc {q : Expr} (ha : a.IsStable) (hb : b.IsStable)
    (hc : c.IsStable) (hp : p.IsStable) (hq : q.IsStable) (habp : product [a, b] = .ok p)
    (hr : product [p, c] = .ok r) (hbcq : product [b, c] = .ok q) (hs : product [a, q] = .ok s)
    (hrd : r.HasDistinctBases) (hsd : s.HasDistinctBases) (hab : c.isNum = true ∨ IsHarmless a b c)
    (hbc : a.isNum = true ∨ IsHarmless b c a) : r = s := by
  -- The second way is the first one for `b`, `c` and `a`, whose factors are the same in another
  -- order.
  have hswap : product [q, a] = .ok s :=
    product_perm (by simpa using ⟨ha.settled, hq.settled⟩) (.swap _ _ _) hs
  have hperm : b.factors ++ c.factors ++ a.factors ~ a.factors ++ b.factors ++ c.factors := by
    rw [List.append_assoc a.factors]
    exact List.perm_append_comm
  have hcoef := Expr.coefficientOf_perm hperm
  by_cases h0 : coefficientOf (a.factors ++ b.factors ++ c.factors) = 0
  · rw [eq_zero_of_coefficient ha.settled hb.settled hc.settled hp.settled h0 habp hr,
      eq_zero_of_coefficient hb.settled hc.settled ha.settled hq.settled
      (hcoef.trans h0) hbcq hswap]
  · have hstable : AreStable (b.factors ++ c.factors ++ a.factors) :=
      ((AreStable.factors hb).append (.factors hc)).append (.factors ha)
    have hleft := leadsTo_product ha hb hc hp h0 habp hr hrd hab
    have hright := leadsTo_product hb hc ha hq (hcoef.trans_ne h0) hbcq hswap hsd hbc
    exact hleft.unique (hright.perm hstable hperm)

end StackAlgebra.Canonical
