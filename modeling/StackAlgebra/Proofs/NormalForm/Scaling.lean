import StackAlgebra.Proofs.NormalForm.Inverse

/-!
# Numbers as factors

It makes no difference whether a number is multiplied with other factors at once, or with their
product afterwards (`product_append_num`). The product takes its course without the number, which
only meets the coefficient in the end; where it is distributed over a sum, the sum must be stable.
It is, since whatever comes out of stable factors has stable bases, even if factors are left
unmerged (`ProductKeepsBases`, `hasStableBases_power`).
-/

namespace StackAlgebra.Canonical

open StackAlgebra.Expr (num nonNumbers isNum coefficientOf coordinates)
open scoped List

variable {b e f p r : Expr} {fs ms : List Expr}

/-! ## Stable bases -/

/-- The bases of the factors are stable. -/
def HasStableBases (e : Expr) : Prop :=
  ∀ f ∈ nonNumbers e.factors, f.base.IsStable

/-- What a product of expressions with stable bases comes to has stable bases. -/
def ProductKeepsBases (fs : List Expr) : Prop :=
  (∀ f ∈ fs, f.IsSettled ∧ HasStableBases f) → ∀ r, product fs = .ok r → HasStableBases r

/-- What a power of a stable expression comes to has stable bases. -/
def PowerKeepsBases (b e : Expr) : Prop :=
  b.IsStable → e.IsSettled → ∀ r, power b e = .ok r → HasStableBases r

/-- Stable expressions have stable bases. -/
theorem hasStableBases_of_isStable (h : e.IsStable) : HasStableBases e := fun f hf =>
  (stable_splitPower (stable_factors h f (Expr.mem_of_mem_nonNumbers hf))).1

/-- The bases of factors are those of the expressions that the factors come from. -/
theorem stable_bases_opened (h : ∀ f ∈ fs, f.IsSettled ∧ HasStableBases f) :
    ∀ g ∈ nonNumbers (opened fs), g.base.IsStable := by
  intro g hg
  have hperm := opened_perm_factors fun f hf => (h f hf).1
  have hmem := hperm.mem_iff.mp (Expr.mem_of_mem_nonNumbers hg)
  obtain ⟨f, hf, hgf⟩ := List.mem_flatMap.mp hmem
  have hn := Expr.isNum_of_mem_nonNumbers hg
  exact (h f hf).2 g (List.mem_filter.mpr ⟨hgf, by simp [hn]⟩)

/-- Merged powers have stable bases, if the powers to several exponents have. -/
theorem hasStableBases_merged_of_calls
    (h : AreFactors fs) (hb : ∀ g ∈ nonNumbers fs, g.base.IsStable)
    (calls : ∀ b es, (b, es) ∈ powersOf fs → 2 ≤ es.length → PowerKeepsBases b (sum es))
    (hms : List.Forall₂ (fun g m => mergePower g = .ok m) (powersOf fs) ms) :
    ∀ m ∈ ms, HasStableBases m := by
  intro m hm
  obtain ⟨g, hg, hgm⟩ := exists_of_mem_forall₂ hms hm
  rcases mergePower_eq_ok h hg hgm with ⟨hmf, -⟩ | ⟨hlen, ho, hpow⟩
  · intro f hf
    have hp := (h m (Expr.mem_of_mem_nonNumbers hmf)).2
    rw [Expr.factors_of_not_isProduct hp] at hf
    exact List.mem_singleton.mp (Expr.mem_of_mem_nonNumbers hf) ▸ hb m hmf
  · obtain ⟨x, hx⟩ := List.exists_mem_of_length_pos (length_mem_group g hg)
    obtain ⟨f, hf, heq⟩ := exists_factor h hg hx
    have hbase := hb f hf
    rw [Expr.base, heq] at hbase
    exact calls g.1 g.2 hg hlen hbase (settled_sum (settled_group h hg).2 ho) m hpow

/-- A product comes to a result with stable bases if its calls do. -/
theorem productKeepsBases_of_calls (calls : ProductCalls ProductKeepsBases PowerKeepsBases fs) :
    ProductKeepsBases fs := by
  intro hfs r h
  have hsettled : ∀ f ∈ fs, f.IsSettled := fun f hf => (hfs f hf).1
  have hos := areFactors_opened hsettled
  rcases merged_of_product_eq_ok h with ⟨-, rfl⟩ | ⟨-, ms, hms, hr⟩
  · exact hasStableBases_of_isStable (Expr.isStable_num 0)
  have hnon : ∀ m ∈ nonNumbers ms, m.IsSettled ∧ HasStableBases m := by
    intro m hm
    have hmem := Expr.mem_of_mem_nonNumbers hm
    exact ⟨settled_merged hos hms m hmem,
      hasStableBases_merged_of_calls hos (stable_bases_opened hfs) calls.merged hms m hmem⟩
  cases multiply_eq_ok hr with
  | again he hr =>
    refine calls.again ms hms he.1 _ (List.forall_mem_append.mpr ⟨hnon, ?_⟩) r hr
    exact List.forall_mem_singleton.mpr
      ⟨Expr.settled_num _, hasStableBases_of_isStable (Expr.isStable_num _)⟩
  | spread he ts rs hts h0 h1 hrs hr ho =>
    -- The sum is a base, and so are multiples of it stable.
    have hmem : Expr.sum ts ∈ nonNumbers ms := hts ▸ List.mem_singleton.mpr rfl
    have hsum : (Expr.sum ts).IsStable := (hnon _ hmem).2 _ (List.mem_singleton.mpr rfl)
    have hstable : ∀ x ∈ rs, x.IsStable := by
      intro x hx
      obtain ⟨t, ht, hx⟩ := exists_of_mem_forall₂ hrs hx
      obtain ⟨y, hy, hys, -⟩ := hasCoordinates_product_num (hsum.child ht) _
      exact Except.ok.inj (hy.symm.trans hx) ▸ hys
    obtain ⟨y, hy, hys, -⟩ := hasCoordinates_sum hstable
    obtain ⟨rfl, -⟩ := inOrder_eq_ok_iff.mp hy
    exact hr ▸ hasStableBases_of_isStable hys
  | gather he hs hr ho =>
    rw [hr]
    intro f hf
    have hprod := not_isProduct_of_not_expanded hos hms he
    by_cases h0 : coefficientOf (opened fs) * coefficientOf ms = 0
    · rw [productOf, if_pos h0] at hf
      cases hf
    · have hperm := (factors_productOf (fun m => Expr.isNum_of_mem_nonNumbers) hprod h0).2
      have hmem := hperm.mem_iff.mp hf
      refine (hnon f hmem).2 f ?_
      rw [Expr.factors_of_not_isProduct (hprod f hmem),
        Expr.nonNumbers_cons (Expr.isNum_of_mem_nonNumbers hmem)]
      exact List.mem_cons_self

/-- A power comes to a result with stable bases if its calls do. -/
theorem powerKeepsBases_of_calls (calls : PowerCalls ProductKeepsBases PowerKeepsBases b e) :
    PowerKeepsBases b e := by
  intro hb he r h
  have single {x : Expr} : HasStableBases (.power b x) := fun f hf =>
    List.mem_singleton.mp (Expr.mem_of_mem_nonNumbers hf) ▸ hb
  cases raised_of_power_eq_ok h with
  | zero _ _ hr => exact hr ▸ hasStableBases_of_isStable (Expr.isStable_num 1)
  | one _ _ hr => exact hr ▸ hasStableBases_of_isStable hb
  | number _ _ q hq hr =>
    subst hq
    cases numberPower_eq_ok hr with
    | number v hr => exact hr ▸ hasStableBases_of_isStable (Expr.isStable_num v)
    | stays _ _ hr => exact hr ▸ single
    | root f c _ _ _ hr hs =>
      have hmonic := Expr.isMonic_of_not_isProduct hs rfl rfl rfl
      rw [hr, HasStableBases, (factors_term hmonic c).2]
      exact List.forall_mem_singleton.mpr hb
  | inner _ _ b' a x hb' hx hr =>
    subst hb'
    have hsettled : ∀ y ∈ [a, e], y.IsSettled := by
      simpa using ⟨(hb.child (c := a) (by simp)).settled, he⟩
    exact calls.inner b' a x rfl hx (hb.child (by simp)) (settled_product hsettled hx) r hr
  | factors _ _ fs rs hb' hi hrs hr =>
    subst hb'
    refine calls.factors fs rs rfl hi hrs (fun x hx => ?_) r hr
    obtain ⟨f, hf, hx⟩ := exists_of_mem_forall₂ hrs hx
    have hfs : f.IsStable := hb.child hf
    exact ⟨settled_power hfs.settled he hx, calls.factor fs rfl hi f hf hfs he x hx⟩
  | stays _ _ _ _ _ hr => exact hr ▸ single

/-- A power of a stable expression has stable bases. -/
theorem hasStableBases_power (hb : b.IsStable) (he : e.IsSettled) (h : power b e = .ok r) :
    HasStableBases r :=
  power_induction (fun _ => productKeepsBases_of_calls)
    (fun _ _ => powerKeepsBases_of_calls) b e hb he r h

/-- Merged powers have stable bases. -/
theorem hasStableBases_merged (h : AreFactors fs) (hb : ∀ g ∈ nonNumbers fs, g.base.IsStable)
    (hms : List.Forall₂ (fun g m => mergePower g = .ok m) (powersOf fs) ms) :
    ∀ m ∈ ms, HasStableBases m :=
  hasStableBases_merged_of_calls h hb (fun _ _ _ _ hb he _ => hasStableBases_power hb he) hms

/-! ## A number more -/

/-- A number put to the other factors comes first among those opened. -/
theorem opened_append_num (fs : List Expr) (q : Rat) :
    opened (fs ++ [num q]) = num q :: opened fs := by
  rw [opened, opened, multiplicandsOf_eq_flatMap, multiplicandsOf_eq_flatMap, List.flatMap_append,
    List.reverse_append]
  rfl

/-- A rational other than zero times a stable sum is distributed over it. -/
theorem product_num_sum {q : Rat} {ts : List Expr} (h : (Expr.sum ts).IsStable) (hq : q ≠ 0) :
    product [num q, .sum ts] = distribute q [.sum ts] := by
  have hcoef : q * coefficientOf (Expr.sum ts).factors = q := mul_one q
  rw [product_num_eq h, hcoef, if_neg hq]
  rfl

/-- The coefficient distributed over what is left, times a number, is both distributed. -/
theorem product_num_distribute (q d : Rat) (hn : ∀ f ∈ fs, f.isNum = false)
    (hprod : ∀ f ∈ fs, f.isProduct = false) (hs : ∀ f ∈ fs, f.IsSettled ∧ HasStableBases f)
    (h0 : d * q ≠ 0) (h : distribute q fs = .ok p) (hp : p.IsStable) :
    distribute (d * q) fs = product [num d, p] := by
  have hq := right_ne_zero_of_mul h0
  cases hspread : spread? q fs with
  | none =>
    rw [distribute, hspread] at h
    obtain ⟨rfl, -⟩ := inOrder_eq_ok_iff.mp h
    obtain ⟨hc, hperm⟩ := factors_productOf hn hprod hq
    rw [product_num_eq hp, hc, if_neg h0]
    exact (distribute_perm (fun f hf => (hs f (hperm.mem_iff.mp hf)).1) hperm).symm
  | some ts =>
    -- Both are stable, with the multiples of the coordinates of the sum.
    obtain ⟨rfl, -, -⟩ := spread?_eq_some_iff.mp hspread
    have hsum : (Expr.sum ts).IsStable := (hs _ List.mem_cons_self).2 _ (List.mem_singleton.mpr rfl)
    obtain ⟨x, hx, hxs, hxc⟩ := hasCoordinates_product_num hsum q
    obtain ⟨y, hy, hys, hyc⟩ := hasCoordinates_product_num hsum (d * q)
    obtain ⟨z, hz, hzs, hzc⟩ := hasCoordinates_product_num hp d
    rw [product_num_sum hsum hq, h] at hx
    obtain rfl := Except.ok.inj hx
    rw [← product_num_sum hsum h0, hy, hz]
    refine congrArg Except.ok (eq_of_coordinates_eq hys.settled hzs.settled ?_)
    rw [hyc, hzc, hxc, mul_smul]

/-- A number is multiplied with other factors at once or with their product, to the same result. -/
theorem product_append_num (hfs : ∀ f ∈ fs, f.IsSettled ∧ HasStableBases f) (h : product fs = .ok p)
    (hp : p.IsStable) (d : Rat) : product (fs ++ [num d]) = product [num d, p] := by
  revert hfs p
  -- By induction on the calls of the product; only multiplying once more asks for anything.
  refine product_induction (P := fun fs => ∀ {p}, (∀ f ∈ fs, f.IsSettled ∧ HasStableBases f) →
    product fs = .ok p → p.IsStable →
    product (fs ++ [num d]) = product [num d, p]) (Q := fun _ _ => True)
    ?_ (fun _ _ _ => trivial) fs
  intro fs calls p hfs h hp
  have hsettled : ∀ f ∈ fs, f.IsSettled := fun f hf => (hfs f hf).1
  have hos := areFactors_opened hsettled
  have hcoef : coefficientOf (opened (fs ++ [num d])) = d * coefficientOf (opened fs) := by
    rw [opened_append_num]
    rfl
  have hpowers : powersOf (opened (fs ++ [num d])) = powersOf (opened fs) := by
    rw [opened_append_num]
    rfl
  obtain ⟨z, hz, hzs, hzc⟩ := hasCoordinates_product_num hp d
  have hzero : (d • p.coordinates = 0) → product [num d, p] = .ok (num 0) := by
    intro hd
    rw [hz, eq_of_coordinates_eq hzs.settled (Expr.settled_num 0)
      (hzc.trans (hd.trans coordinates_zero.symm))]
  rcases merged_of_product_eq_ok h with ⟨h0, rfl⟩ | ⟨h0, ms, hms, hr⟩
  · rw [product_eq, if_pos (by rw [hcoef, h0, mul_zero]),
      hzero (by rw [coordinates_zero, smul_zero])]
  by_cases hd : d = 0
  · rw [product_eq, if_pos (by rw [hcoef, hd, zero_mul]), hzero (by rw [hd, zero_smul])]
  have hnon : ∀ m ∈ nonNumbers ms, m.IsSettled ∧ HasStableBases m := by
    intro m hm
    have hmem := Expr.mem_of_mem_nonNumbers hm
    exact ⟨settled_merged hos hms m hmem,
      hasStableBases_merged hos (stable_bases_opened hfs) hms m hmem⟩
  rw [product_eq_multiply (hcoef.trans_ne (mul_ne_zero hd h0)) (hpowers ▸ hms), hcoef, hpowers]
  rw [multiply] at hr ⊢
  split_ifs at hr ⊢ with hexp
  · have hagain : ∀ m ∈ nonNumbers ms ++ [num (coefficientOf (opened fs) * coefficientOf ms)],
        m.IsSettled ∧ HasStableBases m := by
      refine List.forall_mem_append.mpr
        ⟨hnon, List.forall_mem_singleton.mpr ⟨Expr.settled_num _, ?_⟩⟩
      exact hasStableBases_of_isStable (Expr.isStable_num _)
    have hcall := calls.again ms hms hexp.1 _ hagain hr hp
    rw [hz] at hcall ⊢
    refine product_congr_factors ?_ ?_ ?_ ?_ hcall
    · exact List.forall_mem_append.mpr ⟨fun m hm => (hagain m hm).1, by simp [Expr.settled_num]⟩
    · exact Expr.settled_append_num (fun m hm => (hnon m hm).1) _
    · have hnum (q : Rat) : coefficientOf ([num q].flatMap Expr.factors) = q := mul_one q
      simp only [List.flatMap_append, coefficientOf_append, hnum]
      ring
    · have hnum (q : Rat) : nonNumbers ([num q].flatMap Expr.factors) = [] := rfl
      simp only [List.flatMap_append, Expr.nonNumbers_append, hnum, List.append_nil]
      exact .refl _
  · by_cases hq : coefficientOf (opened fs) * coefficientOf ms = 0
    · rw [hq, distribute_zero] at hr
      rw [mul_assoc, hq, mul_zero, distribute_zero, hzero]
      rw [← Except.ok.inj hr, coordinates_zero, smul_zero]
    · rw [mul_assoc]
      exact product_num_distribute _ d (fun m => Expr.isNum_of_mem_nonNumbers)
        (not_isProduct_of_not_expanded hos hms hexp) hnon (mul_ne_zero hd hq) hr hp

end StackAlgebra.Canonical
