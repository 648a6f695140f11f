import StackAlgebra.Proofs.NormalForm.MergedPower
import StackAlgebra.Proofs.NormalForm.Scaling

/-!
# Products of products

The product of factors, multiplied by a third factor, mostly comes to what all the factors come to
at once: a base gathers the same exponents either way (`leadsTo_of_sparesFactors`). It does so where
the first product leaves alone what the third factor would have changed: no base that is a product
is expanded, no power of a number is evaluated, and no rational is distributed over a sum
(`SparesFactors`). A number as the third factor never changes anything (`leadsTo_of_isNum`).
-/

namespace StackAlgebra.Canonical

open StackAlgebra.Expr
  (num nonNumbers isNum coefficientOf coordinates HaveDistinctBases HasDistinctBases)
open scoped List

variable {a b c p r s β e m : Expr} {fs gs cs ms B : List Expr} {q x y : Rat}

/-! ## The bases of products -/

/-- What a base comes to, if nothing is evaluated twice: the power in the product of all factors. -/
structure Agrees (fs gs cs : List Expr) (β : Expr) : Prop where
  power : power β (totalExponent β (fs ++ cs)) = .ok (mergedPower (fs ++ cs) β)
  rational : rationalPart (fs ++ cs) β = rationalPart fs β * rationalPart (gs ++ cs) β
  leftover : leftover (fs ++ cs) β = leftover (gs ++ cs) β

/-- A base whose power in the factors `fs` is left to the factors `gs` comes to the same with
`cs`. -/
theorem agrees_of_stays (hf : AreStable fs) (hg : AreStable gs) (hc : AreStable cs)
    (hexp : exponentAt β gs = exponentAt β fs) (hone : rationalPart fs β = 1)
    (h : ∃ n, Canonical.power β (totalExponent β (gs ++ cs)) = .ok n) : Agrees fs gs cs β := by
  have htotal : totalExponent β (fs ++ cs) = totalExponent β (gs ++ cs) := by
    refine (hf.append hc).totalExponent_eq (hg.append hc) ?_
    rw [exponentAt_append, exponentAt_append, hexp]
  have hmerged : mergedPower (fs ++ cs) β = mergedPower (gs ++ cs) β := by
    rw [mergedPower, mergedPower, htotal]
  obtain ⟨n, hn⟩ := h
  refine ⟨?_, ?_, ?_⟩
  · rw [hmerged, mergedPower_eq hn, htotal, hn]
  · rw [rationalPart, hmerged, hone, one_mul]
    rfl
  · rw [leftover, hmerged]
    rfl

/-- A power of zero to a number other than zero is zero. -/
theorem eq_zero_of_power_zero (h0 : x ≠ 0) (h : Canonical.power (num 0) (num x) = .ok m) :
    m = num 0 := by
  rw [power_eq, if_neg (by simpa [Expr.isZero] using h0)] at h
  by_cases h1 : (num x).isOne = true
  · rw [if_pos h1] at h
    exact (Except.ok.inj h).symm
  · rw [if_neg h1] at h
    have hnumber : numberPower 0 (num x) = .ok m := h
    rw [numberPower_zero] at hnumber
    split_ifs at hnumber
    exact (Except.ok.inj hnumber).symm

/-- The rational and the root that a power of a number leaves. -/
structure Splits (fs : List Expr) (q f v : Rat) : Prop where
  rational : rationalPart fs (num q) = v
  ne_zero : v ≠ 0
  exponent : exponentAt (num q) (leftover fs (num q)) = (num f).coordinates
  fixed : ∃ n, rationalPower q f = .ok n ∧ coefficientOf n.factors = 1 ∧
    nonNumbers n.factors = leftover fs (num q)

/-- The single exponent of a root. -/
theorem exponentAt_root (q f : Rat) :
    exponentAt (num q) [.power (num q) (num f)] = (num f).coordinates := by
  have hbase : (Expr.power (num q) (num f)).base.same (num q) = true := Expr.same_self (num q)
  rw [exponentAt_singleton rfl, if_pos hbase]
  rfl

/-- A rational power of a number leaves a root, whose exponent lacks the whole part, or nothing. -/
theorem splits_of_rationalPower (h0 : q ≠ 0) (h1 : q ≠ 1)
    (htotal : totalExponent (num q) fs = num x) (h : Canonical.power (num q) (num x) = .ok m) :
    ∃ f v, Splits fs q f v ∧
      ((x.den = 1 ∨ ¬∃ r : Rat, r ^ x.den = |q|) → f = x - x.floor ∧ v = q ^ x.floor) := by
  have hmerged : mergedPower fs (num q) = m := mergedPower_eq (htotal ▸ h)
  rw [power_num_num h0 h1] at h
  rcases rationalPower_eq_ok_cases h0 h with ⟨s, hs, hpow⟩ | hroot
  · rw [hpow x rfl] at h
    have hm : mergedPower fs (num q) = num (s ^ x.num) := hmerged.trans (Except.ok.inj h).symm
    have hleft : leftover fs (num q) = [] := by
      rw [leftover, hm]
      rfl
    have hrational : rationalPart fs (num q) = s ^ x.num := by
      rw [rationalPart, hm]
      exact mul_one _
    have hs0 : s ≠ 0 := by
      rintro rfl
      exact h0 (hs.symm.trans (zero_pow x.den_ne_zero))
    refine ⟨0, s ^ x.num, ⟨hrational, zpow_ne_zero _ hs0, ?_, ?_⟩, fun hx => ?_⟩
    · rw [hleft, coordinates_zero]
      rfl
    · refine ⟨num 1, ?_, mul_one 1, hleft.symm⟩
      simp [rationalPower]
    · -- The power has no root but where the exponent is whole.
      have hden : x.den = 1 := by
        refine hx.resolve_right fun hno => hno ⟨|s|, ?_⟩
        rw [← abs_pow, hs]
      have hint : x = (x.num : ℤ) := ((Rat.den_eq_one_iff x).mp hden).symm
      have hfloor : x.floor = x.num := by
        rw [hint]
        exact Rat.floor_intCast _
      rw [hden, pow_one] at hs
      refine ⟨?_, by rw [hfloor, hs]⟩
      rw [hfloor, ← hint, sub_self]
  · rw [rationalPower_of_root hroot] at h
    have hmonic := Expr.isMonic_of_not_isProduct hroot rfl rfl rfl
    obtain ⟨hc, hn⟩ := factors_term hmonic (q ^ x.floor)
    rw [Except.ok.inj h, ← hmerged] at hc hn
    refine ⟨x - x.floor, q ^ x.floor, ⟨hc, zpow_ne_zero _ h0, ?_, ?_⟩, fun _ => ⟨rfl, rfl⟩⟩
    · rw [leftover, hn]
      exact exponentAt_root q _
    · exact ⟨_, rationalPower_fixed hroot, rfl, hn.symm⟩

/-- A number comes to the same if the rational and the root that are left of it are the same. -/
theorem agrees_of_rationalPower {k n : Expr} (h0 : q ≠ 0) (h1 : q ≠ 1)
    (hx : totalExponent (num q) (fs ++ cs) = num x) (hy : totalExponent (num q) (gs ++ cs) = num y)
    (hk : rationalPower q x = .ok k) (hn : rationalPower q y = .ok n)
    (hcoef : coefficientOf k.factors = rationalPart fs (num q) * coefficientOf n.factors)
    (hleft : nonNumbers k.factors = nonNumbers n.factors) : Agrees fs gs cs (num q) := by
  rw [← power_num_num h0 h1, ← hx] at hk
  rw [← power_num_num h0 h1, ← hy] at hn
  refine ⟨?_, ?_, ?_⟩
  · rw [mergedPower_eq hk, hk]
  · rw [rationalPart, mergedPower_eq hk, hcoef, rationalPart, rationalPart, mergedPower_eq hn]
  · rw [leftover, mergedPower_eq hk, leftover, mergedPower_eq hn, hleft]

/-- A power of a number that is evaluated in the factors `fs` comes to the same with `cs`, if these
have no power of the number, or a rational one while the evaluation took off no more than whole
powers. -/
theorem agrees_of_number (hf : AreStable fs) (hg : AreStable gs) (hc : AreStable cs) (h0 : q ≠ 0)
    (h1 : q ≠ 1) (htotal : totalExponent (num q) fs = num x)
    (hm : Canonical.power (num q) (num x) = .ok m)
    (hexp : exponentAt (num q) gs = exponentAt (num q) (leftover fs (num q)))
    (hcs : totalExponent (num q) cs = num 0 ∨ (x.den = 1 ∨ ¬∃ r : Rat, r ^ x.den = |q|) ∧
      ∃ y, totalExponent (num q) cs = num y)
    (hn : num q ∈ basesOf (gs ++ cs) →
      ∃ n, Canonical.power (num q) (totalExponent (num q) (gs ++ cs)) = .ok n) :
    Agrees fs gs cs (num q) := by
  have hfx := (hf.totalExponent_eq_iff (Expr.settled_num x)).mp htotal
  obtain ⟨f, v, hsplit, hwhole⟩ := splits_of_rationalPower h0 h1 htotal hm
  -- What `cs` has of the number, and the exponents with it in the two products.
  obtain ⟨y, hy, hcases⟩ : ∃ y, totalExponent (num q) cs = num y ∧
      (y = 0 ∨ f = x - x.floor ∧ v = q ^ x.floor) := by
    rcases hcs with hz | ⟨hx, y, hy⟩
    · exact ⟨0, hz, .inl rfl⟩
    · exact ⟨y, hy, .inr (hwhole hx)⟩
  have hcy := (hc.totalExponent_eq_iff (Expr.settled_num y)).mp hy
  have hxy := hf.totalExponent_append hc hfx hcy
  have hfy := hg.totalExponent_append hc (hexp.trans hsplit.exponent) hcy
  rcases hcases with rfl | ⟨rfl, rfl⟩
  · obtain ⟨n, hn, hcoef, hleft⟩ := hsplit.fixed
    rw [power_num_num h0 h1] at hm
    have hmerged : mergedPower fs (num q) = m :=
      mergedPower_eq (by rw [htotal, power_num_num h0 h1, hm])
    rw [add_zero] at hxy hfy
    refine agrees_of_rationalPower h0 h1 hxy hfy hm hn ?_ ?_
    · rw [hcoef, mul_one, rationalPart, hmerged]
    · rw [hleft, leftover, hmerged]
  · -- The whole powers that were taken off are put back.
    obtain ⟨n, hn⟩ : ∃ n, rationalPower q (x - x.floor + y) = .ok n := by
      rw [← power_num_num h0 h1, ← hfy]
      by_cases hmem : num q ∈ basesOf (gs ++ cs)
      · exact hn hmem
      · rw [totalExponent_of_not_mem (hg.append hc).areFactors (Expr.settled_num q) hmem,
          power_num_num h0 h1]
        exact ⟨num 1, by simp [rationalPower]⟩
    obtain ⟨k, hk, hcoef, hleft⟩ := rationalPower_shift h0 hn x.floor
    rw [show x - x.floor + y + x.floor = x + y by ring] at hk
    exact agrees_of_rationalPower h0 h1 hxy hfy hk hn (hsplit.rational ▸ hcoef) hleft

/-! ## Products as merged powers -/

/-- The merged powers of the factors, and their coefficient, multiply to `r`. -/
def MultipliesTo (fs : List Expr) (r : Expr) : Prop :=
  ∃ ms, List.Forall₂ (fun b m => power b (totalExponent b fs) = .ok m) (basesOf fs) ms ∧
    product (num (coefficientOf fs) :: ms) = .ok r

namespace MultipliesTo

/-- What the merged powers multiply to is determined. -/
theorem unique (hr : MultipliesTo fs r) (hs : MultipliesTo fs s) : r = s := by
  obtain ⟨ms, hms, hr⟩ := hr
  obtain ⟨ns, hns, hs⟩ := hs
  rw [merged_eq_map hms] at hr
  rw [merged_eq_map hns, hr] at hs
  exact Except.ok.inj hs

/-- The powers of the bases exist where the factors multiply to something. -/
theorem power_eq (h : MultipliesTo fs r) :
    ∀ b ∈ basesOf fs, power b (totalExponent b fs) = .ok (mergedPower fs b) := by
  obtain ⟨ms, hms, -⟩ := h
  rw [merged_eq_map hms] at hms
  exact forall₂_mergedPower_iff.mp hms

/-- Merged powers are settled. -/
theorem settled_merged (h : AreStable fs)
    (hms : List.Forall₂ (fun b m => power b (totalExponent b fs) = .ok m) (basesOf fs) ms) :
    ∀ e ∈ num (coefficientOf fs) :: ms, e.IsSettled := by
  refine List.forall_mem_cons.mpr ⟨Expr.settled_num _, fun m hm => ?_⟩
  obtain ⟨b, hb, hpow⟩ := exists_of_mem_forall₂ hms hm
  exact settled_power (settled_of_mem_basesOf h.areFactors hb) (h.totalExponent b).settled hpow

/-- Factors in another order multiply to the same. -/
theorem perm (h : AreStable fs) (hp : fs ~ gs) (hr : MultipliesTo fs r) : MultipliesTo gs r := by
  obtain ⟨ms, hms, hr⟩ := hr
  have hnon : nonNumbers fs ~ nonNumbers gs := hp.filter _
  -- The bases are the same in another order, and so are their powers.
  have hbases : basesOf fs ~ basesOf gs := by
    refine (List.perm_ext_iff_of_nodup (nodup_basesOf fs) (nodup_basesOf gs)).mpr fun b => ?_
    rw [mem_basesOf h.areFactors, mem_basesOf (h.perm hp).areFactors]
    exact exists_congr fun f => and_congr_left fun _ => hnon.mem_iff
  obtain ⟨ns, hns, hnm⟩ := List.perm_comp_forall₂ hbases.symm hms
  refine ⟨ns, hns.imp fun b m hm => ?_, ?_⟩
  · rwa [← h.totalExponent_eq (h.perm hp) (exponentAt_perm hnon)]
  · rw [← Expr.coefficientOf_perm hp]
    exact product_perm (settled_merged h hms) (hnm.symm.cons _) hr

/-- A product whose result has different bases is what the factors of its factors multiply to. -/
theorem of_product (h : ∀ f ∈ fs, f.IsStable) (h0 : coefficientOf (fs.flatMap Expr.factors) ≠ 0)
    (hr : product fs = .ok r) (hd : r.HasDistinctBases) :
    MultipliesTo (fs.flatMap Expr.factors) r := by
  have hsettled : ∀ f ∈ fs, f.IsSettled := fun f hf => (h f hf).settled
  have hopen := opened_perm_factors hsettled
  have hstable := (AreStable.flatMap h).perm hopen.symm
  refine perm hstable hopen ?_
  have hcoef := (Expr.coefficientOf_perm hopen).trans_ne h0
  obtain ⟨h00, -⟩ | ⟨-, ms, hms, -⟩ := merged_of_product_eq_ok hr
  · exact absurd h00 hcoef
  · exact ⟨ms, (forall₂_mergePower_iff hstable.areFactors hstable.isMeasured).mp hms,
      product_merged hsettled hcoef hms hr hd⟩

end MultipliesTo

/-! ## Factors of products -/

/-- At most one factor is left of a base, with that base. -/
def LeavesOne (fs : List Expr) (b : Expr) : Prop :=
  leftover fs b = [] ∨ ∃ g, leftover fs b = [g] ∧ IsFactor g ∧ g.base = b

/-- What a base comes to has at most one factor with that base. -/
theorem leavesOne_of_comes (hone : b.isOne = false)
    (h : power b (totalExponent b fs) = .ok (mergedPower fs b))
    (hc : Comes b (totalExponent b fs) (mergedPower fs b)) : LeavesOne fs b := by
  cases hc with
  | one _ _ hm =>
    left
    rw [leftover, hm]
    rfl
  | factor hm hb _ =>
    refine .inr ⟨_, ?_, hm, hb⟩
    rw [leftover, hm.nonNumbers_factors]
  | number q x hb he h0 _ =>
    subst hb
    rw [he] at h
    have h1 : q ≠ 1 := by simpa [Expr.isOne] using hone
    by_cases hq : q = 0
    · subst hq
      left
      rw [leftover, eq_zero_of_power_zero h0 h]
      rfl
    · rw [power_num_num hq h1] at h
      rcases rationalPower_eq_ok_cases hq h with ⟨s, -, hpow⟩ | hroot
      · rw [hpow x rfl] at h
        left
        rw [leftover, ← Except.ok.inj h]
        rfl
      · rw [rationalPower_of_root hroot] at h
        have hmonic := Expr.isMonic_of_not_isProduct hroot rfl rfl rfl
        have hstable : (Expr.power (num q) (num (x - x.floor))).IsStable :=
          ⟨hroot, .intro trivial
              (.pair (Expr.isStable_num q).distinct (Expr.isStable_num _).distinct), by simp⟩
        refine .inr ⟨_, ?_, ⟨hstable, rfl, rfl⟩, rfl⟩
        rw [leftover, ← Except.ok.inj h, (factors_term hmonic _).2]
        rfl

/-- What is left of bases has some of these as its bases. -/
theorem sublist_leftover (h : ∀ b ∈ B, LeavesOne fs b) :
    ((B.flatMap (leftover fs)).map Expr.base).Sublist B := by
  have hsub := sublist_flatMap fun b hb => (h b hb : HasOneOf (id b) (leftover fs b))
  rwa [List.map_id'] at hsub

/-- What is left of bases is a list of factors. -/
theorem isFactor_leftover (h : ∀ b ∈ B, LeavesOne fs b) :
    ∀ g ∈ B.flatMap (leftover fs), IsFactor g :=
  fun g hg => (isFactor_flatMap h g hg).1

/-- Among what is left of bases only what is left of a base itself has an exponent of that base. -/
theorem exponentAt_leftover (hB : B.Nodup) (hs : ∀ b ∈ B, b.IsSettled) (hβ : β.IsSettled)
    (h : ∀ b ∈ B, LeavesOne fs b) (hmem : β ∉ B → leftover fs β = []) :
    exponentAt β (B.flatMap (leftover fs)) = exponentAt β (leftover fs β) := by
  have hone : ∀ b ∈ B, HasOneOf (id b) (leftover fs b) := h
  by_cases hin : β ∈ B
  · exact exponentAt_flatMap (by rwa [List.map_id']) hs hone hin
  · rw [hmem hin, exponentAt_flatMap_eq_zero hs hβ hone]
    · rfl
    · rintro b hb rfl
      exact absurd hb hin

/-- Nothing is left of a base that is not among the factors. -/
theorem leftover_of_not_mem (h : AreStable fs) (hβ : β.IsSettled) (hn : β ∉ basesOf fs) :
    rationalPart fs β = 1 ∧ leftover fs β = [] := by
  have hone := mergedPower_of_zero (totalExponent_of_not_mem h.areFactors hβ hn)
  rw [rationalPart, leftover, hone]
  exact ⟨mul_one 1, rfl⟩

/-- The product `p` of the factors `fs` consists of their coefficient, the rationals and what is
left of their bases. -/
structure ConsistsOf (fs : List Expr) (p : Expr) : Prop where
  leaves : ∀ b ∈ basesOf fs, LeavesOne fs b
  coefficient : coefficientOf p.factors =
    coefficientOf fs * ((basesOf fs).map (rationalPart fs)).prod
  factors : nonNumbers p.factors ~ (basesOf fs).flatMap (leftover fs)

/-- A sum is left of its own base only if the exponents of it add up to one. -/
theorem totalExponent_of_leftover_sum {ts : List Expr}
    (hc : Comes b (totalExponent b fs) (mergedPower fs b)) (hleaves : LeavesOne fs b)
    (hmem : .sum ts ∈ leftover fs b) : b = .sum ts ∧ totalExponent (.sum ts) fs = num 1 := by
  obtain ⟨g, hg, -, hgb⟩ := hleaves.resolve_left (List.ne_nil_of_mem hmem)
  rw [hg, List.mem_singleton] at hmem
  subst hmem
  have hb : b = .sum ts := hgb.symm
  refine ⟨hb, ?_⟩
  subst hb
  cases hc with
  | number q x hb => cases hb
  | one _ _ hm =>
    rw [leftover, hm] at hg
    cases hg
  | factor hm _ he =>
    rw [leftover, hm.nonNumbers_factors] at hg
    rw [← he, (List.cons.inj hg).1]
    rfl

/-- What is left of different bases has different bases. -/
theorem haveDistinctBases_leftover (hB : B.Nodup) (hs : ∀ b ∈ B, b.IsSettled)
    (h : ∀ b ∈ B, LeavesOne fs b) : HaveDistinctBases (B.flatMap (leftover fs)) := by
  have hone : ∀ b ∈ B, HasOneOf (id b) (leftover fs b) := h
  exact haveDistinctBases_flatMap (by rwa [List.map_id']) hs hone

/-- The merged powers consist of the coefficient of the factors, the rationals and what is left of
any bases that are enough for the factors. -/
theorem opened_merged (h : AreStable fs) (hB : Covers B fs)
    (hpow : ∀ b ∈ basesOf fs, power b (totalExponent b fs) = .ok (mergedPower fs b)) :
    coefficientOf (opened (num (coefficientOf fs) :: (basesOf fs).map (mergedPower fs))) =
        coefficientOf fs * (B.map (rationalPart fs)).prod ∧
      nonNumbers (opened (num (coefficientOf fs) :: (basesOf fs).map (mergedPower fs))) ~
        B.flatMap (leftover fs) := by
  have hms := forall₂_mergedPower_iff.mpr hpow
  have hopen := opened_perm_factors (MultipliesTo.settled_merged h hms)
  obtain ⟨hcoef, hleft⟩ := contents_merged h.areFactors hB hms
  refine ⟨?_, (hopen.filter _).trans hleft⟩
  rw [Expr.coefficientOf_perm hopen, ← hcoef]
  rfl

/-- The product of merged powers is put together from what is left of the bases and the
rationals. -/
theorem product_mergedPower (h : AreStable fs)
    (hpow : ∀ b ∈ basesOf fs, power b (totalExponent b fs) = .ok (mergedPower fs b))
    (hc0 : coefficientOf fs * ((basesOf fs).map (rationalPart fs)).prod ≠ 0)
    (hleaves : ∀ b ∈ basesOf fs, LeavesOne fs b) :
    product (num (coefficientOf fs) :: (basesOf fs).map (mergedPower fs)) =
      distribute (coefficientOf fs * ((basesOf fs).map (rationalPart fs)).prod)
        ((basesOf fs).flatMap (leftover fs)) := by
  have hcovers := Covers.self h.areFactors
  have hsettled := MultipliesTo.settled_merged h (forall₂_mergedPower_iff.mpr hpow)
  obtain ⟨hc, hn⟩ := opened_merged h hcovers hpow
  have hfactors := isFactor_leftover hleaves
  have hd : HaveDistinctBases
      (opened (num (coefficientOf fs) :: (basesOf fs).map (mergedPower fs))) := by
    refine (haveDistinctBases_leftover hcovers.nodup hcovers.settled hleaves).perm (.map _ ?_)
    rw [Expr.nonNumbers_of_not_isNum fun g hg => (hfactors g hg).not_isNum]
    exact hn.symm
  rw [product_of_distinct hsettled (hc.trans_ne hc0) hd, hc, distribute_perm ?_ hn]
  exact fun g hg => (hfactors g (hn.mem_iff.mp hg)).stable.settled

/-- Merged powers multiply to what is left of the bases, put together with the rationals. -/
theorem distribute_leftover (h : AreStable fs) (hp : MultipliesTo fs p)
    (hc0 : coefficientOf fs * ((basesOf fs).map (rationalPart fs)).prod ≠ 0)
    (hleaves : ∀ b ∈ basesOf fs, LeavesOne fs b) :
    distribute (coefficientOf fs * ((basesOf fs).map (rationalPart fs)).prod)
      ((basesOf fs).flatMap (leftover fs)) = .ok p := by
  rw [← product_mergedPower h hp.power_eq hc0 hleaves]
  obtain ⟨ms, hms, hp⟩ := hp
  rwa [merged_eq_map hms] at hp

/-- A product whose rationals are not zero consists of what its bases come to, if none is expanded
and no rational is distributed. -/
theorem consistsOf_of_multipliesTo (h : AreStable fs) (hp : MultipliesTo fs p)
    (hc0 : coefficientOf fs * ((basesOf fs).map (rationalPart fs)).prod ≠ 0)
    (hcomes : ∀ b ∈ basesOf fs, Comes b (totalExponent b fs) (mergedPower fs b))
    (hsum : ∀ q ts, .sum ts ∈ basesOf fs → totalExponent (.sum ts) fs = num 1 →
      product [num q, .sum ts] = .ok p → q = 0 ∨ q = 1) :
    ConsistsOf fs p := by
  have hleaves : ∀ b ∈ basesOf fs, LeavesOne fs b := fun b hb =>
    leavesOne_of_comes (h.isBase hb).2.2 (hp.power_eq b hb) (hcomes b hb)
  have hfactors := isFactor_leftover hleaves
  have hd := distribute_leftover h hp hc0 hleaves
  have hspread : spread? (coefficientOf fs * ((basesOf fs).map (rationalPart fs)).prod)
      ((basesOf fs).flatMap (leftover fs)) = none := by
    cases hs : spread? (coefficientOf fs * ((basesOf fs).map (rationalPart fs)).prod)
        ((basesOf fs).flatMap (leftover fs)) with
    | none => rfl
    | some ts =>
      obtain ⟨hone, h0, h1⟩ := spread?_eq_some_iff.mp hs
      have hmem : .sum ts ∈ (basesOf fs).flatMap (leftover fs) := hone ▸ List.mem_singleton.mpr rfl
      obtain ⟨b, hb, hmem'⟩ := List.mem_flatMap.mp hmem
      obtain ⟨rfl, htotal⟩ := totalExponent_of_leftover_sum (hcomes b hb) (hleaves b hb) hmem'
      refine absurd (hsum _ ts hb htotal ?_) (not_or.mpr ⟨h0, h1⟩)
      rw [product_num_sum (hfactors _ hmem).stable h0, ← hone, hd]
  rw [distribute, hspread] at hd
  obtain ⟨rfl, -⟩ := inOrder_eq_ok_iff.mp hd
  obtain ⟨hcoef, hperm⟩ := factors_productOf (fun g hg => (hfactors g hg).not_isNum)
    (fun g hg => (hfactors g hg).not_isProduct) hc0
  exact ⟨hleaves, hcoef, hperm⟩

/-- The bases of factors that are put together. -/
theorem mem_basesOf_append (hf : AreStable fs) (hg : AreStable gs) :
    β ∈ basesOf (fs ++ gs) ↔ β ∈ basesOf fs ∨ β ∈ basesOf gs := by
  rw [mem_basesOf (hf.append hg).areFactors, mem_basesOf hf.areFactors, mem_basesOf hg.areFactors,
    Expr.nonNumbers_append]
  simp only [List.mem_append, or_and_right, exists_or]

/-! ## Products with a third factor -/

/-- A power of a number that is evaluated in the factors `fs` does not matter to the factors `cs`:
these have no power of the number, or a rational one while the evaluation takes off no more than
whole powers. -/
def SparesNumbers (fs cs : List Expr) : Prop :=
  ∀ q x, num q ∈ basesOf fs → totalExponent (num q) fs = num x → x ≠ 0 →
    ¬(Expr.power (num q) (num x)).IsSettled → totalExponent (num q) cs = num 0 ∨
      (x.den = 1 ∨ ¬∃ r : Rat, r ^ x.den = |q|) ∧ ∃ y, totalExponent (num q) cs = num y

/-- In the product `p` of the factors `fs` nothing is evaluated that the factors `cs` would have
changed: no base that is a product is expanded, no power of a number is evaluated that matters to
`cs`, and no rational is distributed over a sum. -/
structure SparesFactors (fs cs : List Expr) (p : Expr) : Prop where
  product (ts : List Expr) (k : ℤ) (hmem : .product ts ∈ basesOf fs)
    (h : totalExponent (.product ts) fs = num k) : k = 0
  number : SparesNumbers fs cs
  sum (q : Rat) (ts : List Expr) (hmem : .sum ts ∈ basesOf fs)
    (h : totalExponent (.sum ts) fs = num 1) (hp : Canonical.product [num q, .sum ts] = .ok p) :
    q = 0 ∨ q = 1

/-- The exponent that a base has in a product is that in what is left of it. -/
theorem ConsistsOf.exponentAt_eq (h : ConsistsOf fs p) (hf : AreStable fs) (hβ : β.IsSettled) :
    exponentAt β p.factors = exponentAt β (leftover fs β) := by
  have hperm : nonNumbers p.factors ~ nonNumbers ((basesOf fs).flatMap (leftover fs)) := by
    rw [Expr.nonNumbers_of_not_isNum fun g hg => (isFactor_leftover h.leaves g hg).not_isNum]
    exact h.factors
  have hcovers := Covers.self hf.areFactors
  rw [exponentAt_perm hperm]
  exact exponentAt_leftover hcovers.nodup hcovers.settled hβ h.leaves fun hmem =>
    (leftover_of_not_mem hf hβ hmem).2

/-- A base other than zero to the exponent zero has a power. -/
theorem exists_power_of_not_mem (h : AreStable fs) (hβ : β.IsSettled) (hz : β ≠ num 0)
    (hn : β ∉ basesOf fs) :
    ∃ n, power β (totalExponent β fs) = .ok n := by
  rw [totalExponent_of_not_mem h.areFactors hβ hn]
  exact ⟨_, power_num_zero hz⟩

/-- Every base of a product that consists of what its bases come to agrees with the product of all
factors. -/
theorem agrees_of_consistsOf (hf : AreStable fs) (hp : p.IsStable) (hc : AreStable cs)
    (hcons : ConsistsOf fs p) (hspares : SparesNumbers fs cs) (h0 : mergedPower fs β ≠ num 0)
    (hpow : β ∈ basesOf fs → power β (totalExponent β fs) = .ok (mergedPower fs β))
    (hcomes : β ∈ basesOf fs → Comes β (totalExponent β fs) (mergedPower fs β))
    (hn : β ∈ basesOf (p.factors ++ cs) → ∃ n, power β (totalExponent β (p.factors ++ cs)) = .ok n)
    (hβ : β ∈ basesOf (fs ++ cs)) : Agrees fs p.factors cs β := by
  have hg := AreStable.factors hp
  have hsettled := settled_of_mem_basesOf (hf.append hc).areFactors hβ
  have hexp := hcons.exponentAt_eq hf hsettled
  -- A base of `fs` comes to its power in one of three ways; a base of `cs` alone is not touched
  -- before.
  by_cases hmem : β ∈ basesOf fs
  · have hfs := hpow hmem
    cases hcomes hmem with
    | one he hb hm =>
      have hleft : leftover fs β = [] := by
        rw [leftover, hm]
        rfl
      refine agrees_of_stays hf hg hc ?_ ?_ ?_
      · rw [hexp, hleft, ← coordinates_totalExponent hf.areFactors, he, coordinates_zero]
        rfl
      · rw [rationalPart, hm]
        exact mul_one 1
      · by_cases hin : β ∈ basesOf (p.factors ++ cs)
        · exact hn hin
        · exact exists_power_of_not_mem (hg.append hc) hsettled hb hin
    | factor hm hb he =>
      have hleft : leftover fs β = [mergedPower fs β] := by
        rw [leftover, hm.nonNumbers_factors]
      refine agrees_of_stays hf hg hc ?_ ?_ (hn ?_)
      · rw [hexp, hleft, exponentAt_base hm.not_isNum hb, he,
          coordinates_totalExponent hf.areFactors]
      · rw [rationalPart, hm.coefficientOf_factors]
      · refine (mem_basesOf_append hg hc).mpr (.inl ((mem_basesOf hg.areFactors).mpr ?_))
        refine ⟨mergedPower fs β, hcons.factors.mem_iff.mpr (List.mem_flatMap.mpr ⟨β, hmem, ?_⟩),
          hb⟩
        rw [hleft]
        exact List.mem_singleton.mpr rfl
    | number q x hb he hx hs =>
      subst hb
      have h1 : q ≠ 1 := by simpa [Expr.isOne] using (hf.isBase hmem).2.2
      rw [he] at hfs
      have hq : q ≠ 0 := by
        rintro rfl
        exact h0 (eq_zero_of_power_zero hx hfs)
      exact agrees_of_number hf hg hc hq h1 he hfs hexp (hspares q x hmem he hx hs) hn
  · obtain ⟨hone, hleft⟩ := leftover_of_not_mem hf hsettled hmem
    have hin := ((mem_basesOf_append hf hc).mp hβ).resolve_left hmem
    refine agrees_of_stays hf hg hc ?_ hone (hn ((mem_basesOf_append hg hc).mpr (.inr hin)))
    rw [hexp, hleft, ← coordinates_totalExponent hf.areFactors,
      totalExponent_of_not_mem hf.areFactors hsettled hmem, coordinates_zero]
    rfl

/-- The bases of a product are among those of its factors. -/
theorem ConsistsOf.mem_basesOf (hp : p.IsStable) (h : ConsistsOf fs p)
    (hβ : β ∈ basesOf p.factors) : β ∈ basesOf fs := by
  obtain ⟨g, hg, rfl⟩ := (Canonical.mem_basesOf (AreStable.factors hp).areFactors).mp hβ
  exact (sublist_leftover h.leaves).subset (List.mem_map_of_mem (h.factors.mem_iff.mp hg))

/-- No base of a product other than zero comes to zero. -/
theorem ConsistsOf.mergedPower_ne_zero (h : ConsistsOf fs p) (hf : AreStable fs) (hp : p.IsStable)
    (hp0 : p ≠ num 0) (hb : b.IsSettled) : mergedPower fs b ≠ num 0 := by
  intro hz
  by_cases hmem : b ∈ basesOf fs
  · refine coefficient_ne_zero hp.settled hp0 ?_
    rw [h.coefficient, List.prod_eq_zero, mul_zero]
    refine List.mem_map.mpr ⟨b, hmem, ?_⟩
    rw [rationalPart, hz]
    exact zero_mul 1
  · rw [mergedPower_of_zero (totalExponent_of_not_mem hf.areFactors hb hmem)] at hz
    cases hz

/-- The product of factors, multiplied by other factors, is what all of them multiply to, if it
consists of what the bases come to. -/
theorem multipliesTo_of_consistsOf (hf : AreStable fs) (hp : p.IsStable) (hp0 : p ≠ num 0)
    (hc : AreStable cs)
    (hfp : MultipliesTo fs p) (hcons : ConsistsOf fs p) (hspares : SparesNumbers fs cs)
    (hcomes : ∀ b ∈ basesOf fs, Comes b (totalExponent b fs) (mergedPower fs b))
    (hr : MultipliesTo (p.factors ++ cs) r) : MultipliesTo (fs ++ cs) r := by
  have hg := AreStable.factors hp
  have hT := hf.append hc
  have hall := Covers.self hT.areFactors
  have hcovers : Covers (basesOf (fs ++ cs)) fs :=
    ⟨hall.nodup, hall.settled, fun b hb => (mem_basesOf_append hf hc).mpr (.inl hb)⟩
  have hcovers' : Covers (basesOf (fs ++ cs)) (p.factors ++ cs) := by
    refine ⟨hall.nodup, hall.settled, fun b hb => (mem_basesOf_append hf hc).mpr ?_⟩
    exact ((mem_basesOf_append hg hc).mp hb).imp_left (hcons.mem_basesOf hp)
  have hagrees : ∀ b ∈ basesOf (fs ++ cs), Agrees fs p.factors cs b := fun b hb =>
    agrees_of_consistsOf hf hp hc hcons hspares
      (hcons.mergedPower_ne_zero hf hp hp0 (hall.settled b hb))
      (hfp.power_eq b) (hcomes b) (fun hmem => ⟨_, hr.power_eq b hmem⟩) hb
  have hns := forall₂_mergedPower_iff.mpr fun b hb => (hagrees b hb).power
  obtain ⟨ms, hms, hr⟩ := hr
  obtain ⟨ks, hks, -⟩ := hfp
  refine ⟨_, hns, ?_⟩
  obtain ⟨hcT, hnT⟩ := contents_merged hT.areFactors hall hns
  obtain ⟨hcm, hnm⟩ := contents_merged (hg.append hc).areFactors hcovers' hms
  -- The rationals of the factors are the same over all bases and over their own.
  obtain ⟨hck, -⟩ := contents_merged hf.areFactors hcovers hks
  obtain ⟨hck', -⟩ := contents_merged hf.areFactors (.self hf.areFactors) hks
  refine product_congr_factors (MultipliesTo.settled_merged (hg.append hc) hms)
    (MultipliesTo.settled_merged hT hns) ?_ ?_ hr
  · -- The rationals of the first product are in its coefficient.
    have hrational : ((basesOf (fs ++ cs)).map (rationalPart (fs ++ cs))).prod =
        ((basesOf (fs ++ cs)).map (rationalPart fs)).prod *
          ((basesOf (fs ++ cs)).map (rationalPart (p.factors ++ cs))).prod := by
      rw [← List.prod_map_mul]
      exact congrArg List.prod (List.map_congr_left fun b hb => (hagrees b hb).rational)
    show coefficientOf (fs ++ cs) * coefficientOf (List.flatMap Expr.factors _) =
      coefficientOf (p.factors ++ cs) * coefficientOf (ms.flatMap Expr.factors)
    rw [hcT, hrational, hcm, coefficientOf_append, coefficientOf_append, hcons.coefficient, ← hck,
      hck']
    ring
  · have hleft : (basesOf (fs ++ cs)).flatMap (leftover (fs ++ cs)) =
        (basesOf (fs ++ cs)).flatMap (leftover (p.factors ++ cs)) :=
      List.flatMap_congr fun b hb => (hagrees b hb).leftover
    show nonNumbers (ms.flatMap Expr.factors) ~ nonNumbers (List.flatMap Expr.factors _)
    exact hnm.trans (hleft ▸ hnT.symm)

/-- Factors whose rationals multiply to zero multiply to zero. -/
theorem MultipliesTo.eq_zero (h : AreStable fs) (hr : MultipliesTo fs r)
    (hz : coefficientOf fs * ((basesOf fs).map (rationalPart fs)).prod = 0) : r = num 0 := by
  obtain ⟨ms, hms, hr⟩ := hr
  obtain ⟨hcoef, -⟩ := contents_merged h.areFactors (.self h.areFactors) hms
  have hopen := opened_perm_factors (MultipliesTo.settled_merged h hms)
  have hc : coefficientOf (opened (num (coefficientOf fs) :: ms)) = 0 := by
    rw [Expr.coefficientOf_perm hopen]
    show coefficientOf fs * coefficientOf (ms.flatMap Expr.factors) = 0
    rw [hcoef, hz]
  rw [product_eq, if_pos hc] at hr
  exact (Except.ok.inj hr).symm

/-- A product is zero if the numbers among the factors multiply to zero. -/
theorem product_eq_zero (h : ∀ f ∈ fs, f.IsSettled)
    (hz : coefficientOf (fs.flatMap Expr.factors) = 0) :
    product fs = .ok (num 0) := by
  rw [product_eq, if_pos ((Expr.coefficientOf_perm (opened_perm_factors h)).trans hz)]

/-- A stable expression to which the base zero matters has it with an exponent that is no number. -/
theorem totalExponent_zero_base (hc : c.IsStable) (h : totalExponent (num 0) c.factors = num y) :
    totalExponent (num 0) c.factors = num 0 := by
  have hstable := AreStable.factors hc
  by_cases hmem : num 0 ∈ basesOf c.factors
  · obtain ⟨f, hf, hfb⟩ := (mem_basesOf hstable.areFactors).mp hmem
    have hexp := exponentAt_of_mem (haveDistinctBases_factors hc) hf
    have hsettled := (hstable f (Expr.mem_of_mem_nonNumbers hf)).1
    rw [hfb, ← coordinates_totalExponent hstable.areFactors, h] at hexp
    have he : f.exponent = num y :=
      (eq_of_coordinates_eq (Expr.settled_num y) (stable_splitPower hsettled).2.settled hexp).symm
    obtain ⟨q, x, rfl⟩ := isNum_exponent ⟨hsettled, Expr.isNum_of_mem_nonNumbers hf,
      (hstable f (Expr.mem_of_mem_nonNumbers hf)).2⟩ (hfb ▸ rfl) (he ▸ rfl)
    obtain rfl : q = 0 := by simpa [Expr.base, Expr.splitPower] using hfb
    exact absurd rfl (base_ne_of_root hsettled.settled).1
  · exact totalExponent_of_not_mem hstable.areFactors (Expr.settled_num 0) hmem

/-- Where the rationals of a product multiply to zero those of a product with other factors do,
too. -/
theorem prod_rationalPart_eq_zero (hf : AreStable fs) (hc : c.IsStable) (hfp : MultipliesTo fs p)
    (hspares : SparesNumbers fs c.factors)
    (hcomes : ∀ b ∈ basesOf fs, Comes b (totalExponent b fs) (mergedPower fs b))
    (hz : ((basesOf fs).map (rationalPart fs)).prod = 0) :
    ((basesOf (fs ++ c.factors)).map (rationalPart (fs ++ c.factors))).prod = 0 := by
  have hcs := AreStable.factors hc
  obtain ⟨b, hb, hzero⟩ := List.mem_map.mp (List.prod_eq_zero_iff.mp hz)
  refine List.prod_eq_zero (List.mem_map.mpr ⟨b, (mem_basesOf_append hf hcs).mpr (.inl hb), ?_⟩)
  have hpow := hfp.power_eq b hb
  cases hcomes b hb with
  | one _ _ hm =>
    rw [rationalPart, hm] at hzero
    exact absurd hzero (by simp [Expr.factors, coefficientOf])
  | factor hm _ _ =>
    rw [rationalPart, hm.coefficientOf_factors] at hzero
    exact absurd hzero one_ne_zero
  | number q x hbq he hx hs =>
    -- Only a power of zero is zero, and `c` has no power of zero.
    subst hbq
    have h1 : q ≠ 1 := by simpa [Expr.isOne] using (hf.isBase hb).2.2
    obtain rfl : q = 0 := by
      by_contra hq
      obtain ⟨f, v, hsplit, -⟩ := splits_of_rationalPower hq h1 he (he ▸ hpow)
      exact hsplit.ne_zero (hsplit.rational.symm.trans hzero)
    have hcz : totalExponent (num 0) c.factors = num 0 := by
      rcases hspares 0 x hb he hx hs with hz | ⟨-, y, hy⟩
      · exact hz
      · exact totalExponent_zero_base hc hy
    have htotal : totalExponent (num 0) (fs ++ c.factors) = totalExponent (num 0) fs := by
      refine (hf.append hcs).totalExponent_eq hf ?_
      rw [exponentAt_append, ← coordinates_totalExponent hcs.areFactors, hcz, coordinates_zero,
        add_zero]
    rw [rationalPart, mergedPower, htotal]
    exact hzero

/-- In a product that spares other factors every base comes to its power in one of the ways that
expand nothing. -/
theorem SparesFactors.comes (h : SparesFactors fs cs p) (hf : AreStable fs)
    (hp : MultipliesTo fs p) :
    ∀ β ∈ basesOf fs, Comes β (totalExponent β fs) (mergedPower fs β) := by
  intro β hβ
  obtain ⟨hs, hpow, hone⟩ := hf.isBase hβ
  refine comes_of_power hs hpow hone (hf.totalExponent β) (fun k hk h0 => ?_) (hp.power_eq β hβ)
  cases β with
  | product ts => exact absurd (h.product ts k hβ hk) h0
  | _ => rfl

/-- The factors multiply to `r`, or `r` is zero and so is whatever they multiply to. -/
def LeadsTo (fs : List Expr) (r : Expr) : Prop :=
  MultipliesTo fs r ∨ r = num 0 ∧ ∀ s, MultipliesTo fs s → s = num 0

/-- What factors lead to is determined. -/
theorem LeadsTo.unique (hr : LeadsTo fs r) (hs : LeadsTo fs s) : r = s := by
  rcases hr with hr | ⟨rfl, hr⟩
  · rcases hs with hs | ⟨rfl, hs⟩
    · exact hr.unique hs
    · exact hs r hr
  · rcases hs with hs | ⟨rfl, -⟩
    · exact (hr s hs).symm
    · rfl

/-- Factors in another order lead to the same. -/
theorem LeadsTo.perm (h : AreStable fs) (hp : fs ~ gs) (hr : LeadsTo fs r) : LeadsTo gs r :=
  hr.imp (MultipliesTo.perm h hp) (And.imp_right fun hz s hs => hz s (hs.perm (h.perm hp) hp.symm))

/-- The product of two stable expressions is what their factors multiply to. -/
theorem multipliesTo_pair (ha : a.IsStable) (hb : b.IsStable)
    (h0 : coefficientOf (a.factors ++ b.factors) ≠ 0) (h : product [a, b] = .ok p)
    (hd : p.HasDistinctBases) : MultipliesTo (a.factors ++ b.factors) p := by
  rw [← flatMap_factors_pair] at h0 ⊢
  exact .of_product (by simpa using ⟨ha, hb⟩) h0 h hd

/-- A product that spares a third factor, multiplied by it, is what all their factors multiply
to. -/
theorem leadsTo_of_sparesFactors (hf : AreStable fs) (hc : c.IsStable) (hp : p.IsStable)
    (h0 : coefficientOf fs ≠ 0) (hc0 : coefficientOf c.factors ≠ 0) (hfp : MultipliesTo fs p)
    (hr : product [p, c] = .ok r) (hd : r.HasDistinctBases) (h : SparesFactors fs c.factors p) :
    LeadsTo (fs ++ c.factors) r := by
  have hcs := AreStable.factors hc
  have hcomes := h.comes hf hfp
  -- A base that comes to zero makes both products zero; otherwise the first one can be taken apart.
  by_cases hz : ((basesOf fs).map (rationalPart fs)).prod = 0
  · obtain rfl := hfp.eq_zero hf (by rw [hz, mul_zero])
    right
    constructor
    · have hsettled : ∀ f ∈ [num 0, c], f.IsSettled := by
        simpa using ⟨Expr.settled_num 0, hc.settled⟩
      have hzero : product [num 0, c] = .ok (num 0) := product_eq_zero hsettled (zero_mul _)
      exact Except.ok.inj (hr.symm.trans hzero)
    · refine fun s hs => hs.eq_zero (hf.append hcs) ?_
      rw [prod_rationalPart_eq_zero hf hc hfp h.number hcomes hz, mul_zero]
  · have hne := mul_ne_zero h0 hz
    have hcons := consistsOf_of_multipliesTo hf hfp hne hcomes h.sum
    have hp0 : p ≠ num 0 := by
      rintro rfl
      exact hne (hcons.coefficient.symm.trans (zero_mul 1))
    have hpc : MultipliesTo (p.factors ++ c.factors) r := by
      refine multipliesTo_pair hp hc ?_ hr hd
      rw [coefficientOf_append]
      exact mul_ne_zero (coefficient_ne_zero hp.settled hp0) hc0
    exact .inl (multipliesTo_of_consistsOf hf hp hp0 hcs hfp hcons h.number hcomes hpc)

/-- A product, multiplied by a number, is what all factors multiply to, whatever was evaluated
before. -/
theorem leadsTo_of_isNum (ha : a.IsStable) (hb : b.IsStable) (hc : c.IsStable) (hp : p.IsStable)
    (h0 : coefficientOf (a.factors ++ b.factors) ≠ 0) (hc0 : coefficientOf c.factors ≠ 0)
    (habp : product [a, b] = .ok p) (hr : product [p, c] = .ok r) (hd : r.HasDistinctBases)
    (h : c.isNum = true) : LeadsTo (a.factors ++ b.factors ++ c.factors) r := by
  obtain ⟨d, rfl⟩ := Expr.exists_eq_num h
  have hbases : ∀ f ∈ [a, b], f.IsSettled ∧ HasStableBases f := by
    simpa using ⟨⟨ha.settled, hasStableBases_of_isStable ha⟩, hb.settled,
        hasStableBases_of_isStable hb⟩
  have hswap : product [num d, p] = .ok r :=
    product_perm (by simpa using ⟨hp.settled, Expr.settled_num d⟩) (.swap _ _ _) hr
  have hall : product [a, b, num d] = .ok r := (product_append_num hbases habp hp d).trans hswap
  have hflat : [a, b, num d].flatMap Expr.factors = a.factors ++ b.factors ++ (num d).factors := by
    rw [List.append_assoc]
    rfl
  rw [← hflat]
  refine .inl (.of_product (by simpa using ⟨ha, hb, hc⟩) ?_ hall hd)
  rw [hflat, coefficientOf_append]
  exact mul_ne_zero h0 hc0

end StackAlgebra.Canonical
