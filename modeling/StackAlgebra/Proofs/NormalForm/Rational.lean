import StackAlgebra.Proofs.NormalForm.Exponents
import StackAlgebra.Proofs.Value.Product

/-!
# Canonical forms of rational expressions

A rational expression has no exponents but integers. In its canonical form no base stands twice in a
product, and so the form is its own canonical form (`IsRational.simplify_simplify`). The reason is
that a base is never a number, a product or a power (`IsAtom`), so that merged powers of it come
down to one, to the base or to a power as it stands (`power_of_isAtom`), and nothing is left over
that could meet the other factors.
-/

namespace StackAlgebra.Expr

variable {e f b x d r : Expr} {es fs : List Expr}

/-- Rational expressions have no functions of angles. -/
theorem IsRational.isMeasured (h : e.IsRational) : e.IsMeasured := by
  refine h.mono fun n hn => ?_
  cases n with
  | angle f x m => exact hn.elim
  | _ => trivial

/-- Numbers are rational. -/
theorem isRational_num (q : Rat) : (num q).IsRational :=
  .intro trivial (by simp)

/-- Integer powers of rational expressions are rational. -/
theorem isRational_power (hb : b.IsRational) (he : e.isInteger = true) :
    (power b e).IsRational := by
  cases e with
  | num q => exact .intro he (.pair hb (isRational_num q))
  | _ => cases he

/-- The expression is rational, settled, and no base stands twice in its products. -/
structure IsRegular (e : Expr) : Prop where
  settled : e.IsSettled
  distinct : e.HasDistinctBases
  rational : e.IsRational

/-- Numbers are regular. -/
theorem isRegular_num (q : Rat) : (num q).IsRegular :=
  ⟨settled_num q, .intro trivial (by simp), isRational_num q⟩

/-- The parts of a regular expression are regular. -/
theorem IsRegular.child {c : Expr} (h : e.IsRegular) (hc : c ∈ e.children) : c.IsRegular :=
  ⟨h.settled.child hc, h.distinct.child hc, h.rational.child hc⟩

/-- Regular expressions are stable. -/
theorem IsRegular.stable (h : e.IsRegular) : e.IsStable :=
  ⟨h.settled, h.distinct, h.rational.isMeasured⟩

/-- The factors of a regular expression are regular, and no products. -/
theorem IsRegular.factors (h : e.IsRegular) :
    ∀ f ∈ e.factors, f.IsRegular ∧ f.isProduct = false := by
  cases e with
  | product fs =>
    exact fun f hf => ⟨h.child hf, (settled_product_iff.mp h.settled).1.not_isProduct f hf⟩
  | _ => exact List.forall_mem_singleton.mpr ⟨h, rfl⟩

/-- A regular expression that has no parts which a power of it would go to. -/
structure IsAtom (b : Expr) : Prop where
  regular : b.IsRegular
  not_isNum : b.isNum = false
  not_isPower : b.isPower = false
  not_isProduct : b.isProduct = false

/-- What is no power is its own base. -/
theorem base_of_not_isPower (h : e.isPower = false) : e.base = e := by
  cases e with
  | power b a => cases h
  | _ => rfl

/-- A regular factor is an integer power of an atom. -/
theorem IsRegular.isAtom_base (h : f.IsRegular) (hn : f.isNum = false) (hp : f.isProduct = false) :
    f.base.IsAtom ∧ f.exponent.isInteger = true := by
  cases f with
  | num q => cases hn
  | product fs => cases hp
  | power b a =>
    have hi : a.isInteger = true := h.rational.here
    obtain ⟨hpower, -, -⟩ := settled_power_iff.mp h.settled
    exact ⟨⟨h.child (c := b) (by simp), hpower.not_isNum_of_isInteger hi, hpower.not_isPower,
      hpower.not_isProduct_of_isInteger hi⟩, hi⟩
  | _ => exact ⟨⟨h, rfl, rfl, rfl⟩, rfl⟩

end StackAlgebra.Expr

namespace StackAlgebra.Canonical

open StackAlgebra.Expr
  (num nonNumbers coefficientOf IsRegular IsAtom IsRational HaveDistinctBases nonNumbers_cons)
open scoped List

variable {fs ms bs : List Expr} {b e r x d : Expr}

/-- Whether an expression is rational has nothing to do with coefficients. -/
theorem ignoresCoefficients_isRational : IgnoresCoefficients IsRational :=
  ignoresCoefficients_everywhere (fun _ => trivial) (fun _ => trivial) (fun _ _ => trivial)
    fun _ _ _ _ => trivial

/-- The canonical sum of regular expressions is regular. -/
theorem isRegular_sum (h : ∀ e ∈ fs, e.IsRegular) : (sum fs).IsRegular := by
  have hrational := ignoresCoefficients_isRational.canonicalSum fun e he => (h e he).rational
  exact ⟨settled_sum (fun e he => (h e he).settled) hrational.isMeasured.hasOrder,
    ignoresCoefficients_hasDistinctBases.canonicalSum fun e he => (h e he).distinct, hrational⟩

/-! ## Merged bases -/

/-- What is left of a base among the factors of a product: a number, or a factor with this base. -/
structure Leaves (b m : Expr) : Prop where
  regular : m.IsRegular
  not_isProduct : m.isProduct = false
  base : m.isNum = false → m.base = b

/-- An integer power of an atom is one, the atom, or the power as it stands. -/
theorem power_of_isAtom (hb : b.IsAtom) (hi : e.isInteger = true) (h : power b e = .ok r) :
    Leaves b r := by
  cases raised_of_power_eq_ok h with
  | zero _ _ hr => exact hr ▸ ⟨Expr.isRegular_num 1, rfl, fun hn => by cases hn⟩
  | one _ _ hr =>
    rw [hr]
    exact ⟨hb.regular, hb.not_isProduct, fun _ => Expr.base_of_not_isPower hb.not_isPower⟩
  | number _ _ q hq => exact absurd hb.not_isNum (by simp [hq, Expr.isNum])
  | inner _ _ b' a _ hp => exact absurd hb.not_isPower (by simp [hp, Expr.isPower])
  | factors _ _ fs _ hp => exact absurd hb.not_isProduct (by simp [hp, Expr.isProduct])
  | stays _ _ _ _ _ hr =>
    have hes : e.IsRegular := by
      cases e with
      | num q => exact Expr.isRegular_num q
      | _ => cases hi
    refine ⟨⟨settled_power hb.regular.settled hes.settled h, ?_, ?_⟩, hr ▸ rfl, fun _ => hr ▸ rfl⟩
    · exact hr ▸ .intro trivial (.pair hb.regular.distinct hes.distinct)
    · exact hr ▸ Expr.isRational_power hb.regular.rational hi

/-- An integer is a number. -/
theorem exists_eq_num_of_isInteger (hi : e.isInteger = true) : ∃ k, e = num k := by
  cases e with
  | num k => exact ⟨k, rfl⟩
  | _ => cases hi

/-- Integer exponents add up to an integer. -/
theorem isInteger_sum (h : ∀ e ∈ fs, e.isInteger = true) : (sum fs).isInteger = true := by
  have hvalue : ∀ e ∈ fs, e = num (exponentValue e) := by
    intro e he
    have hi := h e he
    obtain ⟨q, rfl⟩ := exists_eq_num_of_isInteger hi
    rw [exponentValue, Rat.coe_int_num_of_den_eq_one (of_decide_eq_true hi)]
  rw [sum_exponents hvalue]
  generalize (fs.map exponentValue).sum = k
  simp [Expr.isInteger]

/-- Each base of regular factors leaves a number or a factor with this base. -/
theorem forall₂_leaves (h : ∀ f ∈ fs, f.IsRegular ∧ f.isProduct = false)
    (hms : List.Forall₂ (fun g m => mergePower g = .ok m) (powersOf fs) ms) :
    List.Forall₂ Leaves (basesOf fs) ms := by
  have hfs : AreFactors fs := fun f hf => ⟨(h f hf).1.settled, (h f hf).2⟩
  have hfactor : ∀ f ∈ nonNumbers fs, f.base.IsAtom ∧ f.exponent.isInteger = true := fun f hf =>
    (h f (Expr.mem_of_mem_nonNumbers hf)).1.isAtom_base (Expr.isNum_of_mem_nonNumbers hf)
      (h f (Expr.mem_of_mem_nonNumbers hf)).2
  rw [forall₂_mergePower_iff hfs fun f hf => (h f hf).1.rational.isMeasured] at hms
  refine forall₂_imp_of_mem hms fun b hb m hm => ?_
  obtain ⟨f, hf, rfl⟩ := (mem_basesOf hfs).mp hb
  refine power_of_isAtom (hfactor f hf).1 (isInteger_sum fun e he => ?_) hm
  obtain ⟨g, hg, -, rfl⟩ := mem_exponentsOf.mp he
  exact (hfactor g hg).2

/-- The factors that are left of different bases have these bases. -/
theorem map_base_sublist (h : List.Forall₂ Leaves bs ms) : (nonNumbers ms).map Expr.base <+ bs := by
  induction h with
  | nil => exact .slnil
  | @cons b m bs ms hm _ ih =>
    cases hn : m.isNum with
    | true =>
      obtain ⟨q, rfl⟩ := Expr.exists_eq_num hn
      rw [Expr.nonNumbers_num_cons]
      exact ih.cons b
    | false =>
      rw [nonNumbers_cons hn, List.map_cons, hm.base hn]
      exact ih.cons_cons b

/-- The factors that are left have different bases. -/
theorem haveDistinctBases_of_leaves (h : List.Forall₂ Leaves (basesOf fs) ms) :
    HaveDistinctBases ms := by
  have hbases : Expr.AreDistinct (basesOf fs) := by
    rw [Expr.areDistinct_iff]
    exact List.pairwise_map.mpr (groups_group _).distinct
  exact hbases.sublist (map_base_sublist h)

/-! ## Products and powers -/

/-- A number and rational factors are put together to a rational expression. -/
theorem isRational_productOf (h : ∀ f ∈ fs, f.IsRational) (c : Rat) : (productOf c fs).IsRational :=
  everywhere_productOf (fun _ => trivial) (fun _ => trivial) h c

/-- What a product of regular expressions comes to is regular. -/
def ProductStaysRegular (fs : List Expr) : Prop :=
  (∀ f ∈ fs, f.IsRegular) → ∀ r, product fs = .ok r → r.IsRegular

/-- A product comes to a regular result if the products with the terms of a sum do. -/
theorem productStaysRegular_of_calls
    (calls : ProductCalls ProductStaysRegular (fun _ _ => True) fs) :
    ProductStaysRegular fs := by
  intro hfs r h
  have hos : ∀ f ∈ opened fs, f.IsRegular ∧ f.isProduct = false := by
    intro f hf
    obtain ⟨g, hg, hf⟩ :=
      List.mem_flatMap.mp ((opened_perm_factors fun f hf => (hfs f hf).settled).mem_iff.mp hf)
    exact (hfs g hg).factors f hf
  rcases merged_of_product_eq_ok h with ⟨-, rfl⟩ | ⟨-, ms, hms, hr⟩
  · exact Expr.isRegular_num 0
  have hleaves := forall₂_leaves hos hms
  have hms' : ∀ m ∈ nonNumbers ms, m.IsRegular ∧ m.isProduct = false := by
    intro m hm
    obtain ⟨b, -, hbm⟩ := exists_of_mem_forall₂ hleaves (Expr.mem_of_mem_nonNumbers hm)
    exact ⟨hbm.regular, hbm.not_isProduct⟩
  cases multiply_eq_ok hr with
  | again he hr =>
    obtain ⟨m, hm, hp⟩ := List.any_eq_true.mp he.2
    rw [(hms' m hm).2] at hp
    cases hp
  | spread he ts rs hts h0 h1 hrs hr ho =>
    have hsum : (Expr.sum ts).IsRegular :=
      (hms' _ (by rw [hts]; exact List.mem_singleton.mpr rfl)).1
    rw [hr]
    refine isRegular_sum fun x hx => ?_
    obtain ⟨t, ht, hx⟩ := exists_of_mem_forall₂ hrs hx
    refine calls.spread ms hms ts hts _ t ht ?_ x hx
    simpa using ⟨Expr.isRegular_num _, hsum.child ht⟩
  | gather he hs hr ho =>
    rw [hr]
    have hd : HaveDistinctBases (nonNumbers ms) := by
      unfold HaveDistinctBases
      rw [Expr.nonNumbers_nonNumbers]
      exact haveDistinctBases_of_leaves hleaves
    have hstable :=
      stable_productOf (fun m => Expr.isNum_of_mem_nonNumbers) (fun m hm => (hms' m hm).2)
      (fun m hm => (hms' m hm).1.stable) hd hs
    exact ⟨hstable.settled, hstable.distinct,
      isRational_productOf (fun m hm => (hms' m hm).1.rational) _⟩

/-- The product of regular expressions is regular. -/
theorem isRegular_product (hfs : ∀ f ∈ fs, f.IsRegular) (h : product fs = .ok r) : r.IsRegular :=
  product_induction (fun _ => productStaysRegular_of_calls) (fun _ _ _ => trivial) fs hfs r h

/-- Integers multiply to an integer. -/
theorem den_mul_eq_one {p q : Rat} (hp : p.den = 1) (hq : q.den = 1) : (p * q).den = 1 := by
  rw [← Rat.coe_int_num_of_den_eq_one hp, ← Rat.coe_int_num_of_den_eq_one hq, ← Int.cast_mul]
  exact Rat.den_intCast _

/-- An integer power of a regular expression that is no product is regular. -/
theorem isRegular_power_of_not_isProduct (hb : b.IsRegular) (hp : b.isProduct = false)
    (hi : e.isInteger = true) (h : power b e = .ok r) : r.IsRegular := by
  obtain ⟨k, rfl⟩ := exists_eq_num_of_isInteger hi
  have hden : k.den = 1 := of_decide_eq_true hi
  cases raised_of_power_eq_ok h with
  | zero _ _ hr => exact hr ▸ Expr.isRegular_num 1
  | one _ _ hr => exact hr ▸ hb
  | number _ _ q _ hr =>
    cases numberPower_eq_ok hr with
    | number p hr => exact hr ▸ Expr.isRegular_num p
    | stays _ hn _ => cases hn
    | root f c hf hden' => exact absurd (Expr.num.inj hf ▸ hden) hden'
  | inner _ _ b' a x hb' hx hr =>
    -- The exponents of a power of a power multiply to an integer.
    subst hb'
    obtain ⟨hatom, hexp⟩ := hb.isAtom_base rfl rfl
    obtain ⟨p, rfl⟩ := exists_eq_num_of_isInteger hexp
    rw [product_num_num] at hx
    obtain rfl := Except.ok.inj hx
    refine (power_of_isAtom hatom ?_ hr).regular
    exact decide_eq_true (den_mul_eq_one (of_decide_eq_true hexp) hden)
  | factors _ _ fs _ hb' => exact absurd hp (by simp [hb', Expr.isProduct])
  | stays _ _ hn hpow _ _ =>
    have hnot : b.isPower = false := by
      cases b with
      | power b' a => exact absurd rfl (hpow b' a)
      | _ => rfl
    have hatom : b.IsAtom := ⟨hb, hn, hnot, hp⟩
    exact (power_of_isAtom hatom hi h).regular

/-- An integer power of a regular expression is regular. -/
theorem isRegular_power (hb : b.IsRegular) (hi : e.isInteger = true) (h : power b e = .ok r) :
    r.IsRegular := by
  cases hp : b.isProduct with
  | false => exact isRegular_power_of_not_isProduct hb hp hi h
  | true =>
    cases raised_of_power_eq_ok h with
    | zero _ _ hr => exact hr ▸ Expr.isRegular_num 1
    | one _ _ hr => exact hr ▸ hb
    | number _ _ q hq => exact absurd hp (by simp [hq, Expr.isProduct])
    | inner _ _ b' a _ hb' => exact absurd hp (by simp [hb', Expr.isProduct])
    | factors _ _ fs rs hb' _ hrs hr =>
      subst hb'
      refine isRegular_product (fun x hx => ?_) hr
      obtain ⟨f, hf, hx⟩ := exists_of_mem_forall₂ hrs hx
      obtain ⟨hregular, hnot⟩ := hb.factors f hf
      exact isRegular_power_of_not_isProduct hregular hnot hi hx
    | stays _ _ _ _ hf _ =>
      rw [hf hp] at hi
      cases hi

/-! ## Functions -/

/-- The absolute value of a regular expression is regular. -/
theorem isRegular_abs (hx : x.IsRegular) (h : abs x = .ok r) : r.IsRegular := by
  have stands {y : Expr} (hy : y.IsRegular) (hs : (Expr.unary .abs y).IsSettled) :
      (Expr.unary .abs y).IsRegular :=
    ⟨hs, .intro trivial (List.forall_mem_singleton.mpr hy.distinct),
      .intro (.inr (.inr (.inr rfl))) (List.forall_mem_singleton.mpr hy.rational)⟩
  cases abs_eq_ok hx.settled h with
  | number q _ hr => exact hr ▸ Expr.isRegular_num _
  | nonnegative _ _ hr => exact hr ▸ hx
  | stays _ _ _ hr => exact hr ▸ stands hx (hr ▸ settled_abs hx.settled h)
  | scaled c rest hm hterm hr =>
    have hrest : rest.IsRegular := by
      rw [hterm] at hx
      exact ⟨hm.settled, ignoresCoefficients_hasDistinctBases.rest hx.distinct (hm.rest?_term c),
        ignoresCoefficients_isRational.rest hx.rational (hm.rest?_term c)⟩
    have habs : (absRest rest).IsRegular := by
      have hs := settled_absRest hm
      unfold absRest at hs ⊢
      split_ifs at hs ⊢
      · exact hrest
      · exact stands hrest hs
    exact isRegular_product (by simpa using ⟨Expr.isRegular_num _, habs⟩) hr

/-- The remainder of regular expressions is regular. -/
theorem isRegular_mod (hx : x.IsRegular) (hd : d.IsRegular) (h : mod x d = .ok r) :
    r.IsRegular := by
  have hs := settled_mod hx.settled hd.settled h
  rcases mod_eq_ok h with ⟨q, rfl⟩ | rfl
  · exact Expr.isRegular_num q
  · exact ⟨hs, .intro trivial (.pair hx.distinct hd.distinct),
      .intro trivial (.pair hx.rational hd.rational)⟩

/-- A rational function of one regular operand is regular. -/
theorem isRegular_unary {f : UnaryFunction} (hf : f = .neg ∨ f = .recip ∨ f = .square ∨ f = .abs)
    (hx : x.IsRegular) (h : unary f x = .ok r) : r.IsRegular := by
  rcases hf with rfl | rfl | rfl | rfl
  · exact isRegular_product (by simpa using ⟨Expr.isRegular_num _, hx⟩) h
  · exact isRegular_power hx rfl h
  · exact isRegular_power hx rfl h
  · exact isRegular_abs hx h

end StackAlgebra.Canonical

namespace StackAlgebra.Expr

variable {e r : Expr}

/-- The canonical form of a rational expression is regular. -/
theorem IsRational.isRegular_simplify (he : e.IsRational) (h : e.simplify = .ok r) :
    r.IsRegular := by
  induction e using induction_on_children generalizing r with
  | step e ih =>
    have child {c r : Expr} (hc : c ∈ e.children) (h : c.simplify = .ok r) : r.IsRegular :=
      ih c hc (he.child hc) h
    have all {es rs : List Expr} (hes : ∀ x ∈ es, x ∈ e.children)
        (hrs : List.Forall₂ (fun e r => e.simplify = .ok r) es rs) : ∀ r ∈ rs, r.IsRegular := by
      intro r hr
      obtain ⟨x, hx, hxr⟩ := Canonical.exists_of_mem_forall₂ hrs hr
      exact child (hes x hx) hxr
    cases simplify_eq_ok_iff.mp h with
    | num q => exact isRegular_num q
    | const _ | var _ => exact ⟨settled_simplify h, .intro trivial (by simp), he⟩
    | sum hrs ho => exact Canonical.isRegular_sum (all (fun _ h => h) hrs)
    | product hrs hr => exact Canonical.isRegular_product (all (fun _ h => h) hrs) hr
    | @power b a b' a' r hb ha hr =>
      have hi : a.isInteger = true := he.here
      cases a with
      | num k => exact Canonical.isRegular_power (child (by simp) hb) (Except.ok.inj ha ▸ hi) hr
      | _ => cases hi
    | unary hx hr => exact Canonical.isRegular_unary he.here (child (by simp) hx) hr
    | mod hx hd hr => exact Canonical.isRegular_mod (child (by simp) hx) (child (by simp) hd) hr
    | log _ _ _ | angle _ _ => exact he.here.elim

/-- The canonical form of a rational expression is its own canonical form. -/
theorem IsRational.simplify_simplify (he : e.IsRational) (h : e.simplify = .ok r) :
    r.simplify = .ok r :=
  (he.isRegular_simplify h).stable.simplify

end StackAlgebra.Expr
