import StackAlgebra.Proofs.NormalForm.NestedPower

/-!
# Products as bases

The products among the bases of what products and powers come to are products among the bases of
what they were formed of, or bases of these (`hasBasesIn_product`, `hasBasesIn_power`). So where a
power of a product is expanded, the product is not a base any more, and where one stands its
exponent is added up unchanged (`exponentAt_product`). That tells powers of a product apart of which
one is expanded and another is not: they do not multiply to the power to the sum of the exponents
(`product_ne_of_expanded`).
-/

namespace StackAlgebra

namespace Expr

/-- The expression `p` is the base of a factor, or inside a product that is the base of one. -/
inductive IsInnerBase (p : Expr) : Expr → Prop where
  | base {e f : Expr} (hf : f ∈ nonNumbers e.factors) (hb : f.base = p) : IsInnerBase p e
  | inside {e f : Expr} (hf : f ∈ nonNumbers e.factors) (hp : f.base.isProduct = true)
      (h : IsInnerBase p f.base) : IsInnerBase p e

end Expr

namespace Canonical

open StackAlgebra.Expr (num nonNumbers isNum coefficientOf coordinates IsInnerBase)
open scoped List

variable {S : Expr → Prop} {a b e f g p r u : Expr} {fs gs ms B : List Expr} {y z : Rat} {k m n : ℤ}

/-! ## Where products among the bases come from -/

/-- The products among the bases have the property. -/
def HasBasesIn (S : Expr → Prop) (e : Expr) : Prop :=
  ∀ f ∈ nonNumbers e.factors, f.base.isProduct = true → S f.base

/-- With a product the products among its bases have the property. -/
def IsInherited (S : Expr → Prop) : Prop :=
  ∀ fs, S (.product fs) → HasBasesIn S (.product fs)

/-- What a product of expressions with such bases comes to has such bases. -/
def ProductKeepsBasesIn (S : Expr → Prop) (fs : List Expr) : Prop :=
  (∀ f ∈ fs, f.IsSettled ∧ HasStableBases f ∧ HasBasesIn S f) → ∀ r, product fs = .ok r →
    HasBasesIn S r

/-- What a power of a stable expression comes to has such bases, if a product that is raised has the
property itself or is expanded. -/
def PowerKeepsBasesIn (S : Expr → Prop) (b e : Expr) : Prop :=
  b.IsStable → e.IsSettled → HasBasesIn S b → (b.isProduct = true → e.isInteger = false → S b) →
    ∀ r, power b e = .ok r → HasBasesIn S r

/-- Expressions whose bases are no products. -/
theorem hasBasesIn_of_base (h : ∀ f ∈ nonNumbers e.factors, f.base.isProduct = false) :
    HasBasesIn S e := by
  intro f hf hprod
  rw [h f hf] at hprod
  cases hprod

/-- Bases that have the property where they are products. -/
theorem hasBasesIn_of_isBase (hS : IsInherited S) (hp : b.isPower = false)
    (h : b.isProduct = true → S b) :
    HasBasesIn S b := by
  cases b with
  | product fs => exact hS fs (h rfl)
  | power b e => cases hp
  | _ =>
    refine hasBasesIn_of_base fun f hf => ?_
    rw [List.mem_singleton.mp (Expr.mem_of_mem_nonNumbers hf)]
    rfl

/-- The bases of factors have the property where they have it in the expressions that the factors
come from. -/
theorem bases_opened (h : ∀ f ∈ fs, f.IsSettled ∧ HasBasesIn S f) :
    ∀ g ∈ nonNumbers (opened fs), g.base.isProduct = true → S g.base := by
  intro g hg
  have hperm := opened_perm_factors fun f hf => (h f hf).1
  obtain ⟨f, hf, hgf⟩ := List.mem_flatMap.mp (hperm.mem_iff.mp (Expr.mem_of_mem_nonNumbers hg))
  exact (h f hf).2 g (List.mem_filter.mpr ⟨hgf, by simp [Expr.isNum_of_mem_nonNumbers hg]⟩)

/-- Merged powers have such bases, if the powers to several exponents have. -/
theorem hasBasesIn_merged_of_calls (hS : IsInherited S) (h : AreFactors fs)
    (hs : ∀ g ∈ nonNumbers fs, g.base.IsStable)
    (hb : ∀ g ∈ nonNumbers fs, g.base.isProduct = true → S g.base)
    (calls : ∀ b es, (b, es) ∈ powersOf fs → 2 ≤ es.length → PowerKeepsBasesIn S b (sum es))
    (hms : List.Forall₂ (fun g m => mergePower g = .ok m) (powersOf fs) ms) :
    ∀ m ∈ ms, HasBasesIn S m := by
  intro m hm
  obtain ⟨g, hg, hgm⟩ := exists_of_mem_forall₂ hms hm
  rcases mergePower_eq_ok h hg hgm with ⟨hmf, -⟩ | ⟨hlen, ho, hpow⟩
  · intro f hf
    rw [Expr.factors_of_not_isProduct (h m (Expr.mem_of_mem_nonNumbers hmf)).2] at hf
    exact List.mem_singleton.mp (Expr.mem_of_mem_nonNumbers hf) ▸ hb m hmf
  · obtain ⟨x, hx⟩ := List.exists_mem_of_length_pos (length_mem_group g hg)
    obtain ⟨f, hf, heq⟩ := exists_factor h hg hx
    have hstable := hs f hf
    have hsmall := hb f hf
    have hpower := not_isPower_base (h f (Expr.mem_of_mem_nonNumbers hf)).1
    have hbase : f.base = g.1 := congrArg Prod.fst heq
    rw [hbase] at hstable hsmall hpower
    exact calls g.1 g.2 hg hlen hstable (settled_sum (settled_group h hg).2 ho)
      (hasBasesIn_of_isBase hS hpower hsmall) (fun hp _ => hsmall hp) m hpow

/-- A product comes to a result with such bases if its calls do. -/
theorem productKeepsBasesIn_of_calls (hS : IsInherited S)
    (calls : ProductCalls (ProductKeepsBasesIn S) (PowerKeepsBasesIn S) fs) :
    ProductKeepsBasesIn S fs := by
  intro hfs r h
  have hsettled : ∀ f ∈ fs, f.IsSettled := fun f hf => (hfs f hf).1
  have hos := areFactors_opened hsettled
  have hstable := stable_bases_opened fun f hf => ⟨(hfs f hf).1, (hfs f hf).2.1⟩
  have hbases := bases_opened fun f hf => ⟨(hfs f hf).1, (hfs f hf).2.2⟩
  rcases merged_of_product_eq_ok h with ⟨-, rfl⟩ | ⟨-, ms, hms, hr⟩
  · exact hasBasesIn_of_base (List.forall_mem_nil _)
  have hnon : ∀ m ∈ nonNumbers ms, m.IsSettled ∧ HasStableBases m ∧ HasBasesIn S m := by
    intro m hm
    have hmem := Expr.mem_of_mem_nonNumbers hm
    exact ⟨settled_merged hos hms m hmem, hasStableBases_merged hos hstable hms m hmem,
      hasBasesIn_merged_of_calls hS hos hstable hbases calls.merged hms m hmem⟩
  cases multiply_eq_ok hr with
  | again he hr =>
    refine calls.again ms hms he.1 _ (List.forall_mem_append.mpr ⟨hnon, ?_⟩) r hr
    exact List.forall_mem_singleton.mpr ⟨Expr.settled_num _,
      hasStableBases_of_isStable (Expr.isStable_num _),
      hasBasesIn_of_base (List.forall_mem_nil _)⟩
  | spread he ts _ hts h0 =>
    -- The multiple of a sum is a sum.
    have hmem : Expr.sum ts ∈ nonNumbers ms := hts ▸ List.mem_singleton.mpr rfl
    have hsum : (Expr.sum ts).IsStable := (hnon _ hmem).2.1 _ (List.mem_singleton.mpr rfl)
    rw [multiply] at hr
    have hr := (if_neg he).symm.trans hr
    rw [hts, ← product_num_sum hsum h0] at hr
    obtain ⟨us, hus, -⟩ := exists_multiple_sum hsum h0
    obtain rfl := Except.ok.inj (hr.symm.trans hus)
    exact hasBasesIn_of_isBase hS rfl fun hp => by cases hp
  | gather he hs hr _ =>
    rw [hr]
    intro f hf
    have hprod := not_isProduct_of_not_expanded hos hms he
    by_cases h0 : coefficientOf (opened fs) * coefficientOf ms = 0
    · rw [productOf, if_pos h0] at hf
      cases hf
    · have hperm := (factors_productOf (fun m => Expr.isNum_of_mem_nonNumbers) hprod h0).2
      have hmem := hperm.mem_iff.mp hf
      refine (hnon f hmem).2.2 f ?_
      rw [Expr.factors_of_not_isProduct (hprod f hmem),
        Expr.nonNumbers_cons (Expr.isNum_of_mem_nonNumbers hmem)]
      exact List.mem_cons_self

/-- A power comes to a result with such bases if its calls do. -/
theorem powerKeepsBasesIn_of_calls (hS : IsInherited S)
    (calls : PowerCalls (ProductKeepsBasesIn S) (PowerKeepsBasesIn S) b e) :
    PowerKeepsBasesIn S b e := by
  intro hb he hbases hsmall r h
  cases raised_of_power_eq_ok h with
  | zero _ _ hr => exact hr ▸ hasBasesIn_of_base (List.forall_mem_nil _)
  | one _ _ hr => exact hr ▸ hbases
  | number _ _ q hq hr =>
    subst hq
    cases numberPower_eq_ok hr with
    | number v hr => exact hr ▸ hasBasesIn_of_base (List.forall_mem_nil _)
    | stays _ _ hr => exact hr ▸ hasBasesIn_of_base (List.forall_mem_singleton.mpr rfl)
    | root f c _ _ _ hr hs =>
      have hmonic := Expr.isMonic_of_not_isProduct hs rfl rfl rfl
      refine hr ▸ hasBasesIn_of_base ?_
      rw [(factors_term hmonic c).2]
      exact List.forall_mem_singleton.mpr rfl
  | inner _ _ b' a x hb' hx hr =>
    subst hb'
    have hsettled : ∀ y ∈ [a, e], y.IsSettled := by
      simpa using ⟨(hb.child (c := a) (by simp)).settled, he⟩
    have hinner := hbases (.power b' a) (List.mem_singleton.mpr rfl)
    have hpower := not_isPower_base hb.settled
    exact calls.inner b' a x rfl hx (hb.child (by simp)) (settled_product hsettled hx)
      (hasBasesIn_of_isBase hS hpower hinner) (fun hp _ => hinner hp) r hr
  | factors _ _ fs rs hb' hi hrs hr =>
    subst hb'
    refine calls.factors fs rs rfl hi hrs (fun x hx => ?_) r hr
    obtain ⟨f, hf, hx⟩ := exists_of_mem_forall₂ hrs hx
    have hfs : f.IsStable := hb.child hf
    have hprod := hb.settled.not_isProduct_factors f hf
    refine ⟨settled_power hfs.settled he hx, hasStableBases_power hfs he hx,
      calls.factor fs rfl hi f hf hfs he (fun g hg => ?_) (by simp [hprod]) x hx⟩
    rw [Expr.factors_of_not_isProduct hprod] at hg
    have hn := Expr.isNum_of_mem_nonNumbers hg
    obtain rfl := List.mem_singleton.mp (Expr.mem_of_mem_nonNumbers hg)
    exact hbases g (List.mem_filter.mpr ⟨hf, by simp [hn]⟩)
  | stays _ _ _ _ hi hr =>
    rw [hr]
    exact List.forall_mem_singleton.mpr fun hp => hsmall hp (hi hp)

/-- What a product comes to has no other products as bases. -/
theorem hasBasesIn_product (hS : IsInherited S)
    (hfs : ∀ f ∈ fs, f.IsSettled ∧ HasStableBases f ∧ HasBasesIn S f) (h : product fs = .ok r) :
    HasBasesIn S r :=
  product_induction (fun _ => productKeepsBasesIn_of_calls hS)
    (fun _ _ => powerKeepsBasesIn_of_calls hS) fs hfs r h

/-- What a power comes to has no other products as bases. -/
theorem hasBasesIn_power (hS : IsInherited S) (hb : b.IsStable) (he : e.IsSettled)
    (hbases : HasBasesIn S b) (hsmall : b.isProduct = true → e.isInteger = false → S b)
    (h : power b e = .ok r) : HasBasesIn S r :=
  power_induction (fun _ => productKeepsBasesIn_of_calls hS)
    (fun _ _ => powerKeepsBasesIn_of_calls hS) b e hb he hbases hsmall r h

/-! ## Other products -/

/-- Products other than `p` that do not have it inside. -/
def IsOther (p b : Expr) : Prop :=
  b ≠ p ∧ ¬IsInnerBase p b

/-- Without `p` inside an expression has other products as bases. -/
theorem hasBasesIn_of_not_isInnerBase (h : ¬IsInnerBase p e) : HasBasesIn (IsOther p) e :=
  fun _ hf hprod =>
  ⟨fun hb => h (.base hf hb), fun hin => h (.inside hf hprod hin)⟩

/-- A base that is a product is smaller than the expression. -/
theorem sizeOf_base_lt (hf : f ∈ nonNumbers e.factors) (hp : f.base.isProduct = true) :
    sizeOf f.base < sizeOf e := by
  have hmem := Expr.mem_of_mem_nonNumbers hf
  cases he : e.isProduct with
  | true =>
    cases e with
    | product fs =>
      have hlt := List.sizeOf_lt_of_mem (show f ∈ fs from hmem)
      have hle : sizeOf f.base ≤ sizeOf f := by
        cases f with
        | power b x =>
          simp only [Expr.base, Expr.splitPower, Expr.power.sizeOf_spec]
          omega
        | _ => exact le_rfl
      simp only [Expr.product.sizeOf_spec]
      omega
    | _ => cases he
  | false =>
    rw [Expr.factors_of_not_isProduct he, List.mem_singleton] at hmem
    subst hmem
    cases f with
    | power b x =>
      simp only [Expr.base, Expr.splitPower, Expr.power.sizeOf_spec]
      omega
    | product fs => cases he
    | _ => cases hp

/-- A product is not inside itself. -/
theorem not_isInnerBase_self (hp : p.isProduct = true) : ¬IsInnerBase p p := by
  have hlt : ∀ e, IsInnerBase p e → sizeOf p < sizeOf e := fun e h => by
    induction h with
    | base hf hb => exact hb ▸ sizeOf_base_lt hf (hb ▸ hp)
    | inside hf hprod _ ih => exact ih.trans (sizeOf_base_lt hf hprod)
  exact fun h => (hlt p h).false

/-- Bases of other products are other products. -/
theorem isInherited_isOther (p : Expr) : IsInherited (IsOther p) :=
  fun _ h => hasBasesIn_of_not_isInnerBase h.2

/-- Bases of `p` and of other products are other products. -/
theorem isInherited_eq_or_isOther (hp : p.isProduct = true) :
    IsInherited fun b => b = p ∨ IsOther p b := by
  rintro fs (hfs | hfs) f hf hprod
  · subst hfs
    exact .inr (hasBasesIn_of_not_isInnerBase (not_isInnerBase_self hp) f hf hprod)
  · exact .inr (hasBasesIn_of_not_isInnerBase hfs.2 f hf hprod)

/-- An expression with other products as bases does not have `p` as one. -/
theorem exponentAt_of_isOther (h : HasBasesIn (IsOther p) e) (hs : HasStableBases e)
    (hp : p.isProduct = true) (hps : p.IsSettled) : exponentAt p e.factors = 0 := by
  refine exponentAt_eq_zero fun f hf => ?_
  rw [← Bool.not_eq_true, (hs f hf).settled.same_iff_eq hps]
  intro hb
  exact (h f hf (hb ▸ hp)).1 hb

/-! ## A product that stays a base -/

/-- The exponent of a base in a list of lists is that in the one list with it. -/
theorem exponentAt_flatMap_of_unique {ι : Type*} {I : List ι} {i : ι}
    {F : ι → List Expr} (hI : I.Nodup) (hi : i ∈ I) (h : ∀ j ∈ I, j ≠ i → exponentAt b (F j) = 0) :
    exponentAt b (I.flatMap F) = exponentAt b (F i) := by
  classical
  have hzero : ∀ J : List ι, (∀ j ∈ J, exponentAt b (F j) = 0) →
      exponentAt b (J.flatMap F) = 0 := by
    intro J hJ
    induction J with
    | nil => rfl
    | cons j J ih =>
      obtain ⟨hj, hJ⟩ := List.forall_mem_cons.mp hJ
      rw [List.flatMap_cons, exponentAt_append, hj, ih hJ, add_zero]
  have hperm := ((List.perm_cons_erase hi).flatMap_right F).filter fun f => !f.isNum
  rw [exponentAt_perm hperm, List.flatMap_cons, exponentAt_append, hzero _ fun j hj => ?_, add_zero]
  exact h j (List.mem_of_mem_erase hj) fun hji => (hI.not_mem_erase) (hji ▸ hj)

/-- Settled expressions with measures and stable bases, among which there are no products but `p`
and others. -/
structure IsFormedWith (p e : Expr) : Prop where
  settled : e.IsSettled
  measured : e.IsMeasured
  bases : HasStableBases e
  products : HasBasesIn (fun b => b = p ∨ IsOther p b) e

/-- Numbers are formed with any product. -/
theorem isFormedWith_num (p : Expr) (q : Rat) : IsFormedWith p (num q) :=
  ⟨Expr.settled_num q, (Expr.isStable_num q).measured,
      hasStableBases_of_isStable (Expr.isStable_num q), hasBasesIn_of_base (List.forall_mem_nil _)⟩

/-- Merged powers are formed with a product if their factors are. -/
theorem isFormedWith_merged (hprod : p.isProduct = true) (h : AreFactors fs)
    (hm : ∀ f ∈ fs, f.IsMeasured) (hs : ∀ f ∈ nonNumbers fs, f.base.IsStable)
    (hb : ∀ f ∈ nonNumbers fs, f.base.isProduct = true → f.base = p ∨ IsOther p f.base)
    (hms : List.Forall₂ (fun g m => mergePower g = .ok m) (powersOf fs) ms) :
    ∀ m ∈ ms, IsFormedWith p m := by
  have hT := isInherited_eq_or_isOther hprod
  refine fun m hmem => ⟨settled_merged h hms m hmem, ?_, hasStableBases_merged h hs hms m hmem, ?_⟩
  · exact isMeasured_merged_of_calls hm (fun _ _ _ _ hb he _ => isMeasured_power hb he) hms m hmem
  · exact hasBasesIn_merged_of_calls hT h hs hb
      (fun _ _ _ _ hb he hbases hsmall _ => hasBasesIn_power hT hb he hbases hsmall) hms m hmem

/-- A power of a product to an exponent that is not whole stands. -/
theorem settled_power_of_isProduct (hp : p.IsSettled) (hprod : p.isProduct = true)
    (hz : z.den ≠ 1) :
    (Expr.power p (num z)).IsSettled := by
  obtain ⟨gs, rfl⟩ := Expr.exists_eq_product hprod
  have h0 : z ≠ 0 := by
    rintro rfl
    exact hz rfl
  have h1 : z ≠ 1 := by
    rintro rfl
    exact hz rfl
  exact settled_power_of_stays hp (Expr.settled_num z) (by simpa [Expr.isZero] using h0)
    (by simpa [Expr.isOne] using h1) rfl nofun fun _ => by simpa [Expr.isInteger] using hz

/-- Where powers are merged the exponent of a product stays, if it is not whole. -/
theorem exponentAt_merged (hp : p.IsStable) (hprod : p.isProduct = true) (hz : z.den ≠ 1)
    (h : AreFactors fs) (hm : ∀ f ∈ fs, f.IsMeasured) (hs : ∀ f ∈ nonNumbers fs, f.base.IsStable)
    (hb : ∀ f ∈ nonNumbers fs, f.base.isProduct = true → f.base = p ∨ IsOther p f.base)
    (he : exponentAt p fs = (num z).coordinates)
    (hms : List.Forall₂ (fun g m => mergePower g = .ok m) (powersOf fs) ms) :
    exponentAt p (ms.flatMap Expr.factors) = (num z).coordinates := by
  have hpow := (forall₂_mergePower_iff h hm).mp hms
  have hall := forall₂_mergedPower_iff.mp (merged_eq_map hpow ▸ hpow)
  have hcovers := Covers.self h
  have htotal : totalExponent p fs = num z :=
    eq_of_coordinates_eq (settled_totalExponent h hm p).1 (Expr.settled_num z)
      ((coordinates_totalExponent h p).trans he)
  have hmem : p ∈ basesOf fs := by
    by_contra hnot
    rw [totalExponent_of_not_mem h hp.settled hnot] at htotal
    exact hz (Expr.num.inj htotal ▸ rfl)
  rw [exponentAt_of_perm (contents_merged h hcovers hpow).2,
    exponentAt_flatMap_of_unique hcovers.nodup hmem fun β hβ hne => ?_]
  · -- The power of the product stands.
    have hstands := settled_power_of_isProduct hp.settled hprod hz
    rw [leftover, mergedPower_eq ((congrArg _ htotal).trans (power_fixed hstands))]
    exact exponentAt_base rfl rfl
  · -- What other bases come to does not have it.
    obtain ⟨f, hf, rfl⟩ := (mem_basesOf h).mp hβ
    have hother : f.base.isProduct = true → IsOther p f.base :=
      fun hfp => (hb f hf hfp).resolve_left hne
    have hexp := (settled_totalExponent h hm f.base).1
    have hbases := hasBasesIn_power (isInherited_isOther p) (hs f hf) hexp
      (hasBasesIn_of_isBase (isInherited_isOther p)
        (not_isPower_base (h f (Expr.mem_of_mem_nonNumbers hf)).1) hother)
      (fun hfp _ => hother hfp) (hall f.base hβ)
    rw [leftover, exponentAt_nonNumbers]
    exact exponentAt_of_isOther hbases
      (hasStableBases_power (hs f hf) hexp (hall f.base hβ)) hprod hp.settled

/-- What a product comes to other than zero has the exponent of a product that its factors have, if
it is not whole. -/
theorem exponentAt_product (hp : p.IsStable) (hprod : p.isProduct = true) (hz : z.den ≠ 1) :
    ∀ fs, (∀ f ∈ fs, IsFormedWith p f) →
    exponentAt p (fs.flatMap Expr.factors) = (num z).coordinates →
      ∀ r, product fs = .ok r → r ≠ num 0 → exponentAt p r.factors = (num z).coordinates := by
  have hz0 : z ≠ 0 := fun hz0 => hz (by rw [hz0]; rfl)
  refine product_induction (Q := fun _ _ => True) (fun fs calls hfs he r h hr0 => ?_)
    (fun _ _ _ => trivial)
  have hopen := opened_perm_factors fun f hf => (hfs f hf).settled
  have hos := areFactors_opened fun f hf => (hfs f hf).settled
  have hstable := stable_bases_opened fun f hf => ⟨(hfs f hf).settled, (hfs f hf).bases⟩
  have hbases := bases_opened fun f hf => ⟨(hfs f hf).settled, (hfs f hf).products⟩
  have hmeasured : ∀ g ∈ opened fs, g.IsMeasured := fun g hg => by
    obtain ⟨f, hf, hg⟩ := List.mem_flatMap.mp (hopen.mem_iff.mp hg)
    exact isMeasured_factors (hfs f hf).measured g hg
  rw [← exponentAt_perm (hopen.filter _)] at he
  rcases merged_of_product_eq_ok h with ⟨-, rfl⟩ | ⟨-, ms, hms, hr⟩
  · exact absurd rfl hr0
  have hformed := isFormedWith_merged hprod hos hmeasured hstable hbases hms
  have hexp := exponentAt_merged hp hprod hz hos hmeasured hstable hbases he hms
  have hnon : ∀ m ∈ nonNumbers ms, IsFormedWith p m :=
    fun m hm => hformed m (Expr.mem_of_mem_nonNumbers hm)
  rw [exponentAt_perm (.of_eq (nonNumbers_flatMap_factors ms))] at hexp
  cases multiply_eq_ok hr with
  | again hexpanded hr =>
    refine calls.again ms hms hexpanded.1 _ (List.forall_mem_append.mpr ⟨hnon, ?_⟩) ?_ r hr hr0
    · exact List.forall_mem_singleton.mpr (isFormedWith_num p _)
    · rw [List.flatMap_append, exponentAt_append, hexp]
      exact add_zero _
  | spread _ ts _ hts =>
    -- A sum alone does not have the product as a base.
    rw [hts, List.flatMap_singleton] at hexp
    have hzero : exponentAt p (Expr.sum ts).factors = 0 := by
      have hsum := hnon (.sum ts) (hts ▸ List.mem_singleton.mpr rfl)
      refine exponentAt_of_isOther (hasBasesIn_of_base fun f hf => ?_) hsum.bases hprod hp.settled
      rw [List.mem_singleton.mp (Expr.mem_of_mem_nonNumbers hf)]
      rfl
    have hcoord := hexp.symm.trans (hzero.trans coordinates_zero.symm)
    exact absurd
      (Expr.num.inj (eq_of_coordinates_eq (Expr.settled_num z) (Expr.settled_num 0) hcoord)) hz0
  | gather hexpanded hs hr _ =>
    have hprods := not_isProduct_of_not_expanded hos hms hexpanded
    have hself : (nonNumbers ms).flatMap Expr.factors = nonNumbers ms := Expr.flatMap_factors hprods
    have hc0 : coefficientOf (opened fs) * coefficientOf ms ≠ 0 :=
      fun hz => hr0 (hr.trans (if_pos hz))
    have hperm := (factors_productOf (fun m => Expr.isNum_of_mem_nonNumbers) hprods hc0).2
    rw [hself] at hexp
    rw [hr, ← hexp, exponentAt_of_perm hperm]

/-! ## Powers of which one expands a product -/

/-- The product `p` is inside no other base of the expression. -/
def IsInsideNoOther (p a : Expr) : Prop :=
  ∀ f ∈ nonNumbers a.factors, f.base ≠ p → f.base.isProduct = true → ¬IsInnerBase p f.base

/-- Other factors come to powers with other products as bases. -/
theorem hasBasesIn_raised (h : a.IsStable) (hother : IsInsideNoOther p a)
    (hf : f ∈ nonNumbers a.factors) (hne : f.base ≠ p) (hr : power f (num k) = .ok r) :
    HasBasesIn (IsOther p) r := by
  have hfactor := isFactor_of_mem h f hf
  refine hasBasesIn_power (isInherited_isOther p) hfactor.stable (Expr.settled_num _)
    (fun g hg hprod => ?_) (fun hprod => by rw [hfactor.not_isProduct] at hprod; cases hprod) hr
  rw [Expr.factors_of_not_isProduct hfactor.not_isProduct] at hg
  obtain rfl := List.mem_singleton.mp (Expr.mem_of_mem_nonNumbers hg)
  exact ⟨hne, hother g hf hne hprod⟩

/-- What the factors of a stable expression come to. -/
theorem raised_of_mem (h : a.IsStable) (h0 : a ≠ num 0) (hk : k ≠ 0) (hr : power a (num k) = .ok r)
    {P : Expr → Prop} (hnum : ∀ q, P (num q))
    (hP : ∀ f ∈ nonNumbers a.factors, power f (num k) = .ok (raised k f) →
      P (raised k f)) : ∀ m ∈ a.factors.map (raised k), P m := by
  intro m hm
  obtain ⟨f, hf, rfl⟩ := List.mem_map.mp hm
  cases hn : f.isNum with
  | true =>
    obtain ⟨q, rfl⟩ := Expr.exists_eq_num hn
    rw [raised_eq (power_num_int (absurd · (num_ne_zero_of_mem_factors h.settled h0 q hf)))]
    exact hnum _
  | false =>
    have hmem : f ∈ nonNumbers a.factors := List.mem_filter.mpr ⟨hf, by simp [hn]⟩
    exact hP f hmem ((raised_of_power h hk hr).1 f hmem)

/-- Powers of an expression that has `p` inside no other base are formed with it. -/
theorem isFormedWith_power (h : a.IsStable) (hprod : p.isProduct = true)
    (hother : IsInsideNoOther p a) (hr : power a (num k) = .ok r) : IsFormedWith p r := by
  have hint : (num (k : Rat)).isInteger = true := by simp [Expr.isInteger]
  refine ⟨settled_power h.settled (Expr.settled_num _) hr,
    isMeasured_power h.measured (Expr.isStable_num _).measured hr,
    hasStableBases_power h (Expr.settled_num _) hr,
    hasBasesIn_power (isInherited_eq_or_isOther hprod) h (Expr.settled_num _) (fun f hf hfp => ?_)
      (fun _ hi => by rw [hint] at hi; cases hi) hr⟩
  by_cases hb : f.base = p
  · exact .inl hb
  · exact .inr ⟨hb, hother f hf hb hfp⟩

/-- Factors have nothing inside other bases that the expression does not have there. -/
theorem isInsideNoOther_factor (h : a.IsStable) (hother : IsInsideNoOther p a)
    (hf : f ∈ nonNumbers a.factors) :
    IsInsideNoOther p f := by
  intro g hg
  rw [Expr.factors_of_not_isProduct (isFactor_of_mem h f hf).not_isProduct] at hg
  obtain rfl := List.mem_singleton.mp (Expr.mem_of_mem_nonNumbers hg)
  exact hother g hf

/-- What the factors of a stable expression come to is formed with a product that is inside no other
base. -/
theorem isFormedWith_raised (h : a.IsStable) (h0 : a ≠ num 0) (hprod : p.isProduct = true)
    (hother : IsInsideNoOther p a) (hk : k ≠ 0) (hr : power a (num k) = .ok r) :
    ∀ m ∈ a.factors.map (raised k), IsFormedWith p m :=
  raised_of_mem h h0 hk hr (isFormedWith_num p) fun _ hf hpow =>
    isFormedWith_power (isFactor_of_mem h _ hf).stable hprod
      (isInsideNoOther_factor h hother hf) hpow

/-- Where a power of a product is not whole its exponent is multiplied. -/
theorem exponentAt_power (h : a.IsStable) (h0 : a ≠ num 0) (hf : .power p (num y) ∈ a.factors)
    (hprod : p.isProduct = true) (hother : IsInsideNoOther p a) (hk : (y * k).den ≠ 1)
    (hr : power a (num k) = .ok r) (hr0 : r ≠ num 0) :
    exponentAt p r.factors = (num (y * k)).coordinates := by
  have hk0 : k ≠ 0 := by
    rintro rfl
    exact hk (by rw [Int.cast_zero, mul_zero]; rfl)
  have hmem : Expr.power p (num y) ∈ nonNumbers a.factors := List.mem_filter.mpr ⟨hf, rfl⟩
  have hfactor := isFactor_of_mem h _ hmem
  have hps : p.IsStable := hfactor.stable.child (by simp)
  obtain ⟨hpow, hprods⟩ := raised_of_power h hk0 hr
  have hself : exponentAt p (raisedRest k (.power p (num y))) = (num (y * k)).coordinates := by
    have hexp : ¬(Expr.power p (num y)).IsExpandedBy k := by
      rintro ⟨gs, z, hz, hden⟩
      rw [Expr.num.inj (Expr.power.inj hz).2] at hk
      exact hk hden
    rw [mul_comm, coordinates_num_mul]
    refine exponentAt_raisedRest hfactor (fun _ => hexp) fun hn => ?_
    cases p with
    | num q => cases hprod
    | _ => cases hn
  have hother' : ∀ f ∈ nonNumbers a.factors, f ≠ .power p (num y) →
      exponentAt p (raisedRest k f) = 0 := by
    intro f hf hne
    have hb : f.base ≠ p := fun hb => hne (eq_of_base_eq h hf hmem hb)
    rw [raisedRest, exponentAt_nonNumbers]
    exact exponentAt_of_isOther (hasBasesIn_raised h hother hf hb (hpow f hf))
      (hasStableBases_power (isFactor_of_mem h f hf).stable (Expr.settled_num _) (hpow f hf))
      hprod hps.settled
  have hall : exponentAt p ((a.factors.map (raised k)).flatMap Expr.factors) =
      (num (y * k)).coordinates := by
    rw [← hself, ← exponentAt_flatMap_of_unique (bases_of_isStable h).1.of_map hmem hother']
    exact exponentAt_of_perm (.of_eq (contents_raised h h0 k).2)
  rcases hprods with hprods | hone
  · exact exponentAt_product hps hprod hk _
      (isFormedWith_raised h h0 hprod hother hk0 hr) hall r hprods hr0
  · rwa [hone, List.flatMap_singleton] at hall

/-- Where a power of a product is whole the product is no base any more. -/
theorem hasBasesIn_power_of_expanded (h : a.IsStable) (h0 : a ≠ num 0)
    (hf : .power p (num y) ∈ a.factors) (hprod : p.isProduct = true) (hother : IsInsideNoOther p a)
    (hk0 : k ≠ 0) (hk : (y * k).den = 1) (hr : power a (num k) = .ok r) :
    HasBasesIn (IsOther p) r := by
  have hmem : Expr.power p (num y) ∈ nonNumbers a.factors := List.mem_filter.mpr ⟨hf, rfl⟩
  have hfactor := isFactor_of_mem h _ hmem
  have hraised : ∀ m ∈ a.factors.map (raised k), HasBasesIn (IsOther p) m := by
    refine raised_of_mem h h0 hk0 hr
      (fun q => hasBasesIn_of_base (List.forall_mem_nil _)) fun f hf hpow => ?_
    by_cases hb : f.base = p
    · obtain rfl := eq_of_base_eq h hf hmem hb
      obtain ⟨gs, rfl⟩ := Expr.exists_eq_product hprod
      have hint : (num ((y * k).num : ℤ)).isInteger = true := by simp [Expr.isInteger]
      rw [power_expanded hfactor hk0 ((Rat.den_eq_one_iff _).mp hk).symm] at hpow
      exact hasBasesIn_power (isInherited_isOther _)
        (hfactor.stable.child (by simp)) (Expr.settled_num _)
        (hasBasesIn_of_not_isInnerBase (not_isInnerBase_self hprod))
        (fun _ hi => by rw [hint] at hi; cases hi) hpow
    · exact hasBasesIn_raised h hother hf hb hpow
  rcases (raised_of_power h hk0 hr).2 with hprods | hone
  · have hformed := isFormedWith_raised h h0 hprod hother hk0 hr
    exact hasBasesIn_product (isInherited_isOther p)
      (fun m hm => ⟨(hformed m hm).settled, (hformed m hm).bases, hraised m hm⟩) hprods
  · exact hraised r (hone ▸ List.mem_singleton.mpr rfl)

/-- If one power expands a product that is inside no other base, and the other does not, the powers
do not multiply to the power to the sum of the exponents, unless that is zero. -/
theorem product_ne_of_expanded (h : a.IsStable) (h0 : a ≠ num 0) (hf : .power p (num y) ∈ a.factors)
    (hprod : p.isProduct = true) (hother : IsInsideNoOther p a) (hm0 : m ≠ 0) (hm : (y * m).den = 1)
    (hn : (y * n).den ≠ 1) (hq : power a (num m) = .ok e) (hu : power a (num n) = .ok u)
    (hr : power a (num (m + n : ℤ)) = .ok r) (hr0 : r ≠ num 0) : product [e, u] ≠ .ok r := by
  intro hmul
  have hfactor := isFactor_of_mem h _ (List.mem_filter.mpr ⟨hf, rfl⟩)
  have hps : p.IsStable := hfactor.stable.child (by simp)
  have he := isFormedWith_power h hprod hother hq
  have hu' := isFormedWith_power h hprod hother hu
  have hu0 : u ≠ num 0 := by
    rintro rfl
    refine hr0 (Except.ok.inj
        (hmul.symm.trans (product_eq_zero (by simpa using ⟨he.settled, hu'.settled⟩) ?_)))
    rw [flatMap_factors_pair, coefficientOf_append]
    exact mul_eq_zero_of_right _ (zero_mul 1)
  have hmn : (y * (m + n : ℤ)).den ≠ 1 := by
    intro hden
    refine hn ?_
    have hsub : y * n = ((y * (m + n : ℤ)).num - (y * m).num : ℤ) := by
      rw [Int.cast_sub, (Rat.den_eq_one_iff _).mp hden, (Rat.den_eq_one_iff _).mp hm]
      push_cast
      ring
    rw [hsub, Rat.den_intCast]
  -- The product has the exponent of the factor that stands in one power alone.
  have hpair : exponentAt p ([e, u].flatMap Expr.factors) = (num (y * n)).coordinates := by
    rw [flatMap_factors_pair, exponentAt_append, exponentAt_power h h0 hf hprod hother hn hu hu0,
      exponentAt_of_isOther (hasBasesIn_power_of_expanded h h0 hf hprod hother hm0 hm hq)
      he.bases hprod hps.settled, zero_add]
  have hleft := exponentAt_product hps hprod hn [e, u] (by simpa using ⟨he, hu'⟩) hpair r hmul hr0
  have heq := Expr.num.inj (eq_of_coordinates_eq (Expr.settled_num _) (Expr.settled_num _)
    (hleft.symm.trans (exponentAt_power h h0 hf hprod hother hmn hr hr0)))
  push_cast at heq
  have hzero : y * m = 0 := by linarith
  exact whole_ne_zero hfactor hm0 (hzero.trans Int.cast_zero.symm) rfl

end Canonical
end StackAlgebra
