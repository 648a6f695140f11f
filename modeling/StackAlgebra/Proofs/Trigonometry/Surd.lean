import StackAlgebra.Proofs.NormalForm.IntegerPower
import StackAlgebra.Proofs.NormalForm.Scaling
import StackAlgebra.Proofs.Operator.Multiplication
import Mathlib.NumberTheory.Real.Irrational
import Mathlib.Tactic.LinearCombination
import Mathlib.Tactic.Module

/-!
# Rational combinations of square roots

The values of sine and tangent at special angles are rational combinations of one and of the square
roots of two and three (`Surd`). Such a combination can be told from its value
(`Surd.toReal_injective`), as the square root of six is no rational, and it has a canonical
expression (`Surd.toExpr`). So there is only one expression that denotes a real in this way
(`Denotes.unique`), and equations between expressions are equations between reals. Multiples and
sums of such expressions denote the multiples and sums (`Denotes.scale`, `Denotes.add`). Squares and
products are denoted by those of multiples of a single root, if both have the same root or one of
them is a number (`Denotes.power_two`, `Denotes.product`).
-/

namespace StackAlgebra

open StackAlgebra.Expr (num nonNumbers coefficientOf)
open StackAlgebra.Canonical

namespace Expr

/-- There is no function to or from angles in the expression. -/
def HasNoAngle (e : Expr) : Prop :=
  e.Everywhere fun n => ∀ f x m, n ≠ angle f x m

/-- A number has no function of angles. -/
theorem hasNoAngle_num (q : Rat) : (num q).HasNoAngle :=
  .intro (by simp) (by simp)

/-- A function of angles is one. -/
theorem not_hasNoAngle_angle (f : AngleFunction) (x : Expr) (m : Option String) :
    ¬(angle f x m).HasNoAngle :=
  fun h => h.here f x m rfl

end Expr

/-! ## Multiples of one root -/

/-- The numbers of whose square roots the special values are made. -/
inductive Radicand where
  | one | two | three
deriving DecidableEq

namespace Radicand

variable (n m : Radicand) (p q : Rat)

/-- The number. -/
def toNat : Radicand → ℕ
  | one => 1
  | two => 2
  | three => 3

/-- The square root of one is one. -/
theorem sqrt_toNat_one : √(one.toNat : ℝ) = 1 := by
  rw [toNat, Nat.cast_one, Real.sqrt_one]

/-- The product of the two square roots is a multiple of one root. -/
def Compatible (n m : Radicand) : Prop :=
  n = m ∨ n = one ∨ m = one

/-- Whether two roots are compatible can be decided. -/
instance : Decidable (Compatible n m) :=
  inferInstanceAs (Decidable (_ ∨ _))

/-- The square root of the number as factors, none for one. -/
def roots : Radicand → List Expr
  | one => []
  | two => [SpecialAngle.root 2]
  | three => [SpecialAngle.root 3]

/-- A rational multiple of the square root. -/
def multiple (n : Radicand) (p : Rat) : Expr :=
  productOf p n.roots

/-- The roots are stable factors. -/
theorem isFactor_roots : ∀ f ∈ n.roots, IsFactor f := by
  cases n with
  | one => exact List.forall_mem_nil _
  | two => exact List.forall_mem_singleton.mpr ⟨isStable_root settled_root_two, rfl, rfl⟩
  | three => exact List.forall_mem_singleton.mpr ⟨isStable_root settled_root_three, rfl, rfl⟩

/-- No rational is distributed over a root. -/
theorem spread?_roots : spread? p n.roots = none := by
  cases n <;> rfl

/-- Multiples of roots are stable. -/
theorem isStable_multiple : (n.multiple p).IsStable := by
  refine stable_productOf (fun f hf => (n.isFactor_roots f hf).not_isNum)
    (fun f hf => (n.isFactor_roots f hf).not_isProduct)
    (fun f hf => (n.isFactor_roots f hf).stable) ?_ (n.spread?_roots p)
  cases n with
  | one => exact .nil
  | two => exact List.pairwise_singleton _ _
  | three => exact List.pairwise_singleton _ _

/-- The multiple by zero is zero. -/
theorem multiple_zero : n.multiple 0 = num 0 := rfl

/-- Multiples of one are numbers. -/
theorem multiple_one : one.multiple p = num p := by
  rw [multiple, roots, productOf]
  split_ifs with h0 h1
  · rw [h0]
  · rw [h1]
    rfl
  · rfl

/-- A multiple of a root has the rational as coefficient, and unless it is zero the root beside
it. -/
theorem factors_multiple : coefficientOf (n.multiple p).factors = p ∧
    (p ≠ 0 → nonNumbers (n.multiple p).factors = n.roots) := by
  by_cases hp : p = 0
  · rw [hp, multiple_zero]
    exact ⟨mul_one 0, absurd rfl⟩
  obtain ⟨hc, hroots⟩ := factors_productOf (c := p) (fun f hf => (n.isFactor_roots f hf).not_isNum)
    (fun f hf => (n.isFactor_roots f hf).not_isProduct) hp
  refine ⟨hc, fun _ => ?_⟩
  cases n with
  | one => exact List.perm_nil.mp hroots
  | two => exact List.perm_singleton.mp hroots
  | three => exact List.perm_singleton.mp hroots

/-- A rational times a multiple is a multiple. -/
theorem product_num_multiple : product [num p, n.multiple q] = .ok (n.multiple (p * q)) := by
  rw [product_num_eq (n.isStable_multiple q)]
  obtain ⟨hc, hroots⟩ := n.factors_multiple q
  rw [hc]
  split_ifs with h0
  · rw [h0, multiple_zero]
  · rw [hroots (right_ne_zero_of_mul h0), distribute, n.spread?_roots]
    exact inOrder_eq_ok_iff.mpr ⟨rfl, (n.isStable_multiple (p * q)).measured.hasOrder⟩

/-- The coordinates of a multiple are the multiples of those of the root. -/
theorem coordinates_multiple : (n.multiple p).coordinates = p • (n.multiple 1).coordinates := by
  obtain ⟨r, hr, -, hc⟩ := hasCoordinates_product_num (n.isStable_multiple 1) p
  rw [product_num_multiple, mul_one] at hr
  rw [← hc, Except.ok.inj hr]

/-- There is no function of angles in a multiple of a root. -/
theorem hasNoAngle_multiple : (n.multiple p).HasNoAngle := by
  have root (q : Rat) : (SpecialAngle.root q).HasNoAngle :=
    .intro (by simp [SpecialAngle.root])
      (.pair (Expr.hasNoAngle_num q) (Expr.hasNoAngle_num (1 / 2)))
  refine everywhere_productOf (by simp) (by simp) ?_ p
  cases n with
  | one => exact List.forall_mem_nil _
  | two => exact List.forall_mem_singleton.mpr (root 2)
  | three => exact List.forall_mem_singleton.mpr (root 3)

/-! ## Squares and products -/

/-- The square of a square root is the number. -/
theorem power_root_two : power (SpecialAngle.root q) (num 2) = .ok (num q) := by
  have hexp : product [num (1 / 2), num 2] = .ok (num 1) := by
    rw [product_num_num]
    norm_num
  rw [SpecialAngle.root, power_eq, if_neg (by decide), if_neg (by decide)]
  simp only [hexp]
  exact power_num_one (num q)

/-- A rational other than zero is not the multiple of a root by zero. -/
theorem multiple_ne_zero (hp : p ≠ 0) : n.multiple p ≠ num 0 := by
  intro h0
  have hc := (n.factors_multiple p).1
  rw [h0] at hc
  exact hp (hc.symm.trans (mul_one 0))

/-- The square of the root is the number. -/
theorem power_roots_two : ∀ f ∈ n.roots, power f (num (2 : ℤ)) = .ok (num n.toNat) := by
  cases n with
  | one => exact List.forall_mem_nil _
  | two => exact List.forall_mem_singleton.mpr (power_root_two 2)
  | three => exact List.forall_mem_singleton.mpr (power_root_two 3)

/-- The number under the root is all that the root brings to the square, and nothing is left of
it. -/
theorem contents_power_two (hp : p ≠ 0) :
    powerRational 2 (n.multiple p) = p ^ 2 * n.toNat ∧ powerRest 2 (n.multiple p) = [] := by
  have hbrings : ∀ f ∈ n.roots, raisedRational 2 f = n.toNat ∧ raisedRest 2 f = [] := by
    intro f hf
    rw [raisedRational, raisedRest, raised_eq (n.power_roots_two f hf)]
    exact ⟨mul_one _, rfl⟩
  obtain ⟨hc, hroots⟩ := n.factors_multiple p
  rw [powerRational, powerRest, hc, hroots hp]
  cases n with
  | one => simp [roots, toNat]
  | two | three =>
    obtain ⟨hrational, hrest⟩ := hbrings _ (List.mem_singleton.mpr rfl)
    simp [roots, hrational, hrest]

/-- The square of a multiple of a root is a number. -/
theorem power_multiple_two : power (n.multiple p) (num 2) = .ok (num (p ^ 2 * n.toNat)) := by
  by_cases hp : p = 0
  · have h : power (num 0) (num (2 : ℤ)) = .ok (num (0 ^ (2 : ℤ))) := power_num_int fun _ => by
      decide
    simpa [hp, multiple_zero] using h
  have hs := n.isStable_multiple p
  have h0 := n.multiple_ne_zero p hp
  have hfactors : ∀ f ∈ nonNumbers (n.multiple p).factors,
      power f (num (2 : ℤ)) = .ok (raised 2 f) ∧ (raised 2 f).IsStable := by
    intro f hf
    rw [(n.factors_multiple p).2 hp] at hf
    have hraised := n.power_roots_two f hf
    rw [raised_eq hraised]
    exact ⟨hraised, Expr.isStable_num _⟩
  obtain ⟨hrational, hnothing⟩ := n.contents_power_two p hp
  obtain ⟨hcoef, hrest⟩ := contents_raised hs h0 2
  have hstable := (forall₂_raised_factors hs h0 hfactors).2
  have hpow : power (n.multiple p) (num (2 : ℤ)) = .ok (num (p ^ 2 * n.toNat)) := by
    rw [power_eq_product_of_stable hs h0 two_ne_zero hfactors]
    refine product_congr_factors (List.forall_mem_singleton.mpr (Expr.settled_num _))
      (fun r hr => (hstable r hr).settled) ?_ ?_ (product_singleton (Expr.isStable_num _))
    · rw [hcoef, hrational]
      exact (mul_one _).symm
    · rw [hrest, hnothing]
      exact .nil
  exact hpow

/-- The product of a root with itself is the number. -/
theorem product_self : product [n.multiple 1, n.multiple 1] = .ok (num n.toNat) := by
  -- The two halves in the exponents add up to one.
  have hone : inOrder (Canonical.sum [num (1 / 2), num (1 / 2)]) = .ok (num 1) := by
    with_unfolding_all rfl
  cases n with
  | one => exact product_num_one (one.isStable_multiple 1)
  | two =>
    refine (Operator.product_power_power hone (power_num_one (num 2))).trans ?_
    with_unfolding_all rfl
  | three =>
    refine (Operator.product_power_power hone (power_num_one (num 3))).trans ?_
    with_unfolding_all rfl

/-- The factors of two multiples of roots. -/
theorem contents_multiples :
    coefficientOf ([n.multiple p, m.multiple q].flatMap Expr.factors) = p * q ∧
    (p * q ≠ 0 →
      nonNumbers ([n.multiple p, m.multiple q].flatMap Expr.factors) = n.roots ++ m.roots) := by
  obtain ⟨hcn, hn⟩ := n.factors_multiple p
  obtain ⟨hcm, hm⟩ := m.factors_multiple q
  have hflat : [n.multiple p, m.multiple q].flatMap Expr.factors =
      (n.multiple p).factors ++ (m.multiple q).factors := by simp
  rw [hflat, coefficientOf_append, Expr.nonNumbers_append, hcn, hcm]
  exact ⟨rfl, fun h0 => by rw [hn (left_ne_zero_of_mul h0), hm (right_ne_zero_of_mul h0)]⟩

/-- The product of multiples is the multiple of the product of the roots. -/
theorem product_multiples {r s : Expr} (h : product [n.multiple 1, m.multiple 1] = .ok r)
    (hr : r.IsStable) (hs : product [num (p * q), r] = .ok s) :
    product [n.multiple p, m.multiple q] = .ok s := by
  have stable (x y : Rat) : ∀ f ∈ [n.multiple x, m.multiple y], f.IsStable := by
    simpa using ⟨n.isStable_multiple x, m.isStable_multiple y⟩
  have settled (x y : Rat) : ∀ f ∈ [n.multiple x, m.multiple y], f.IsSettled :=
    fun f hf => (stable x y f hf).settled
  have hbases : ∀ f ∈ [n.multiple 1, m.multiple 1], f.IsSettled ∧ HasStableBases f := fun f hf =>
    ⟨settled 1 1 f hf, hasStableBases_of_isStable (stable 1 1 f hf)⟩
  obtain ⟨hcone, hone⟩ := contents_multiples n m 1 1
  obtain ⟨hc, hroots⟩ := contents_multiples n m p q
  by_cases h0 : p * q = 0
  · rw [product_eq_zero (settled p q) (hc.trans h0), ← hs, h0, product_num_eq hr,
      if_pos (zero_mul _)]
  rw [← product_append_num hbases h hr] at hs
  have hnum : [num (p * q)].flatMap Expr.factors = [num (p * q)] := rfl
  refine product_congr_factors (Expr.settled_append_num (settled 1 1) _) (settled p q) ?_ ?_ hs
  · rw [List.flatMap_append, coefficientOf_append, hcone, hc, hnum]
    simp [coefficientOf]
  · rw [List.flatMap_append, Expr.nonNumbers_append, hone (by norm_num), hroots h0, hnum]
    exact .of_eq (List.append_nil _)

end Radicand

/-! ## Combinations of roots -/

/-- A rational combination of one and of the square roots of two and three. -/
@[ext]
structure Surd where
  one : Rat
  two : Rat
  three : Rat

namespace Surd

/-- The combination as a real. -/
noncomputable def toReal (s : Surd) : ℝ :=
  s.one + s.two * √2 + s.three * √3

/-- The multiples of the roots. -/
def terms (s : Surd) : List Expr :=
  [Radicand.one.multiple s.one, Radicand.two.multiple s.two, Radicand.three.multiple s.three]

/-- The canonical expression of the combination. -/
def toExpr (s : Surd) : Expr :=
  Canonical.sum s.terms

/-- The coordinates of the combination. -/
def coordinates (s : Surd) : Option Expr → Rat :=
  s.one • (Radicand.one.multiple 1).coordinates + s.two • (Radicand.two.multiple 1).coordinates +
    s.three • (Radicand.three.multiple 1).coordinates

/-- The multiple of a single root. -/
def single (p : Rat) : Radicand → Surd
  | .one => ⟨p, 0, 0⟩
  | .two => ⟨0, p, 0⟩
  | .three => ⟨0, 0, p⟩

/-- The sum of two combinations. -/
def add (s t : Surd) : Surd :=
  ⟨s.one + t.one, s.two + t.two, s.three + t.three⟩

/-- A rational multiple of a combination. -/
def scale (p : Rat) (s : Surd) : Surd :=
  ⟨p * s.one, p * s.two, p * s.three⟩

variable (s t : Surd) (p q r : Rat) (n : Radicand)

/-- The multiple of a single root as a real. -/
theorem toReal_single : (single p n).toReal = p * √n.toNat := by
  cases n <;> simp [toReal, single, Radicand.toNat]

/-- The sum of combinations is that of the reals. -/
theorem toReal_add : (s.add t).toReal = s.toReal + t.toReal := by
  simp only [toReal, add, Rat.cast_add]
  ring

/-- The multiple of a combination is that of the real. -/
theorem toReal_scale : (s.scale p).toReal = p * s.toReal := by
  simp only [toReal, scale, Rat.cast_mul]
  ring

/-- The coordinates of a single root are those of its multiple. -/
theorem coordinates_single : (single p n).coordinates = (n.multiple p).coordinates := by
  rw [n.coordinates_multiple p]
  cases n <;> simp [coordinates, single]

/-- The coordinates of a sum of combinations add up. -/
theorem coordinates_add : (s.add t).coordinates = s.coordinates + t.coordinates := by
  simp only [coordinates, add]
  module

/-- The coordinates of a multiple are multiplied. -/
theorem coordinates_scale : (s.scale p).coordinates = p • s.coordinates := by
  simp only [coordinates, scale]
  module

/-- The canonical expression of a combination is stable and has its coordinates. -/
theorem toExpr_spec : s.toExpr.IsStable ∧ s.toExpr.coordinates = s.coordinates := by
  have hstable : ∀ t ∈ s.terms, t.IsStable := by simp [terms, Radicand.isStable_multiple]
  have hcoord : (s.terms.map Expr.coordinates).sum = s.coordinates := by
    simp only [terms, List.map_cons, List.map_nil, List.sum_cons, List.sum_nil, add_zero,
      ← add_assoc]
    rw [Radicand.coordinates_multiple, Radicand.two.coordinates_multiple,
      Radicand.three.coordinates_multiple]
    rfl
  obtain ⟨r, hr, hs, hc⟩ := hasCoordinates_sum hstable
  obtain ⟨rfl, -⟩ := inOrder_eq_ok_iff.mp hr
  exact ⟨hs, hc.trans hcoord⟩

/-- There is no function of angles in the canonical expression of a combination. -/
theorem hasNoAngle_toExpr : s.toExpr.HasNoAngle := by
  have hignores : IgnoresCoefficients Expr.HasNoAngle :=
    ignoresCoefficients_everywhere (by simp) (by simp) (by simp) (by simp)
  exact hignores.canonicalSum (by simp [terms, Radicand.hasNoAngle_multiple])

/-! ## Values -/

/-- A combination of one and a single irrational number vanishes only if its coefficients do. -/
theorem eq_zero_of_irrational {x : ℝ} (hx : Irrational x) (h : (p : ℝ) + q * x = 0) :
    p = 0 ∧ q = 0 := by
  have hq : q = 0 := by
    by_contra hq
    have hcast : (q : ℝ) ≠ 0 := Rat.cast_ne_zero.mpr hq
    refine hx ⟨-p / q, ?_⟩
    rw [Rat.cast_div, Rat.cast_neg, div_eq_iff hcast]
    linear_combination -h
  rw [hq, Rat.cast_zero, zero_mul, add_zero] at h
  exact ⟨Rat.cast_eq_zero.mp h, hq⟩

/-- A combination vanishes only if its coefficients do. -/
theorem eq_zero_of_toReal (h : (p : ℝ) + q * √2 + r * √3 = 0) : p = 0 ∧ q = 0 ∧ r = 0 := by
  have h2 : √2 * √2 = (2 : ℝ) := Real.mul_self_sqrt (by norm_num)
  have h3 : √3 * √3 = (3 : ℝ) := Real.mul_self_sqrt (by norm_num)
  have h6 : √2 * √3 = √6 := by
    rw [← Real.sqrt_mul (by norm_num)]
    norm_num
  have irrational3 : Irrational √3 := by simpa using Nat.prime_three.irrational_sqrt
  have irrational6 : Irrational √6 := by
    have hsq : ¬IsSquare (6 : ℕ) := by decide +kernel
    simpa using irrational_sqrt_natCast_iff.mpr hsq
  -- The root of six comes in when the part with both roots is squared.
  have hsquare : ((2 * q ^ 2 + 3 * r ^ 2 - p ^ 2 : ℚ) : ℝ) + (2 * q * r : ℚ) * √6 = 0 := by
    have hroots : q * √2 + r * √3 = -p := by linear_combination h
    have hpow : (q * √2 + r * √3) ^ 2 = (-p : ℝ) ^ 2 := by rw [hroots]
    push_cast
    linear_combination hpow - q ^ 2 * h2 - r ^ 2 * h3 - 2 * q * r * h6
  obtain ⟨-, hqr⟩ := eq_zero_of_irrational _ _ irrational6 hsquare
  rcases mul_eq_zero.mp hqr with hq | hr
  · have hq : q = 0 := (mul_eq_zero.mp hq).resolve_left two_ne_zero
    rw [hq, Rat.cast_zero, zero_mul, add_zero] at h
    obtain ⟨hp, hr⟩ := eq_zero_of_irrational _ _ irrational3 h
    exact ⟨hp, hq, hr⟩
  · rw [hr, Rat.cast_zero, zero_mul, add_zero] at h
    obtain ⟨hp, hq⟩ := eq_zero_of_irrational _ _ irrational_sqrt_two h
    exact ⟨hp, hq, hr⟩

/-- A combination can be told from its value. -/
theorem toReal_injective : Function.Injective toReal := by
  intro s t h
  simp only [toReal] at h
  have hzero : ((s.one - t.one : ℚ) : ℝ) + (s.two - t.two : ℚ) * √2 + (s.three - t.three : ℚ) * √3 =
      0 := by
    push_cast
    linear_combination h
  obtain ⟨h1, h2, h3⟩ := eq_zero_of_toReal _ _ _ hzero
  exact Surd.ext (sub_eq_zero.mp h1) (sub_eq_zero.mp h2) (sub_eq_zero.mp h3)

end Surd

/-! ## Expressions that denote reals -/

/-- The computation comes to the canonical expression of a combination with this value. -/
def Denotes (x : Except Error Expr) (y : ℝ) : Prop :=
  ∃ s : Surd, x = .ok s.toExpr ∧ s.toReal = y

namespace Denotes

variable {x x' : Except Error Expr} {y z : ℝ} {a b : Expr} {p q : Rat} {n m : Radicand}

/-- What has the coordinates of a combination denotes its value. -/
theorem of_hasCoordinates {s : Surd} (h : HasCoordinates x s.coordinates) : Denotes x s.toReal := by
  obtain ⟨r, hx, hr, hc⟩ := h
  obtain ⟨hs, hsc⟩ := s.toExpr_spec
  exact ⟨s, by rw [hx, eq_of_coordinates_eq hr.settled hs.settled (hc.trans hsc.symm)], rfl⟩

/-- Only one expression denotes a real. -/
theorem unique (h : Denotes x y) (h' : Denotes x' y) : x = x' := by
  obtain ⟨s, rfl, hs⟩ := h
  obtain ⟨t, rfl, ht⟩ := h'
  rw [Surd.toReal_injective (hs.trans ht.symm)]

/-- Computations that denote equal reals agree. -/
theorem congr (h : Denotes x y) (h' : Denotes x' z) (heq : y = z) : x = x' :=
  h.unique (heq ▸ h')

/-- What denotes a real exists, is stable, and has no function of angles. -/
theorem exists_ok (h : Denotes x y) : ∃ r, x = .ok r ∧ r.IsStable ∧ r.HasNoAngle := by
  obtain ⟨s, rfl, -⟩ := h
  exact ⟨_, rfl, s.toExpr_spec.1, s.hasNoAngle_toExpr⟩

/-- An expression that denotes a real is stable. -/
theorem isStable (h : Denotes (.ok a) y) : a.IsStable := by
  obtain ⟨r, hr, hs, -⟩ := h.exists_ok
  exact Except.ok.inj hr ▸ hs

/-- Multiples of roots denote what they show. -/
theorem multiple (n : Radicand) (p : Rat) : Denotes (.ok (n.multiple p)) (p * √n.toNat) := by
  rw [← Surd.toReal_single]
  exact of_hasCoordinates ⟨_, rfl, n.isStable_multiple p, (Surd.coordinates_single p n).symm⟩

/-- Numbers denote themselves. -/
theorem num (q : Rat) : Denotes (.ok (.num q)) q := by
  have h := multiple .one q
  rwa [Radicand.multiple_one, Radicand.sqrt_toNat_one, mul_one] at h

/-- The multiple of an expression denotes the multiple. -/
theorem scale (h : Denotes (.ok a) y) (p : Rat) :
    Denotes (Canonical.product [.num p, a]) (p * y) := by
  obtain ⟨s, hs, rfl⟩ := h
  obtain rfl := Except.ok.inj hs
  obtain ⟨hstable, hc⟩ := s.toExpr_spec
  rw [← Surd.toReal_scale]
  refine of_hasCoordinates ?_
  rw [Surd.coordinates_scale, ← hc]
  exact hasCoordinates_product_num hstable p

/-- The product with minus one denotes the negative. -/
theorem neg (h : Denotes (.ok a) y) : Denotes (Canonical.product [.num (-1), a]) (-y) := by
  have hneg := h.scale (-1)
  rwa [Rat.cast_neg, Rat.cast_one, neg_one_mul] at hneg

/-- The sum of two expressions denotes the sum. -/
theorem add (ha : Denotes (.ok a) y) (hb : Denotes (.ok b) z) :
    Denotes (inOrder (Canonical.sum [a, b])) (y + z) := by
  obtain ⟨s, hs, rfl⟩ := ha
  obtain ⟨t, ht, rfl⟩ := hb
  obtain rfl := Except.ok.inj hs
  obtain rfl := Except.ok.inj ht
  obtain ⟨hss, hsc⟩ := s.toExpr_spec
  obtain ⟨hts, htc⟩ := t.toExpr_spec
  rw [← Surd.toReal_add]
  refine of_hasCoordinates ?_
  have hcoord : ([s.toExpr, t.toExpr].map Expr.coordinates).sum = (s.add t).coordinates := by
    simp [Surd.coordinates_add, hsc, htc]
  rw [← hcoord]
  exact hasCoordinates_sum (by simpa using ⟨hss, hts⟩)

/-- What denotes a multiple of a root is that multiple. -/
theorem eq_multiple (h : Denotes (.ok a) (p * √n.toNat)) : a = n.multiple p :=
  Except.ok.inj (h.unique (multiple n p))

/-- The square of a multiple of a root denotes the square. -/
theorem power_two (h : Denotes (.ok a) (p * √n.toNat)) :
    Denotes (Canonical.power a (.num 2)) ((p * √n.toNat) ^ 2) := by
  have hsq : (p * √n.toNat) ^ 2 = ((p ^ 2 * n.toNat : ℚ) : ℝ) := by
    rw [mul_pow, Real.sq_sqrt (Nat.cast_nonneg _)]
    push_cast
    rfl
  rw [h.eq_multiple, n.power_multiple_two, hsq]
  exact num _

/-- The product of two compatible roots denotes the product. -/
theorem product_roots (h : n.Compatible m) :
    Denotes (Canonical.product [n.multiple 1, m.multiple 1]) (√n.toNat * √m.toNat) := by
  have one (n : Radicand) : Canonical.product [.num 1, n.multiple 1] = .ok (n.multiple 1) :=
    product_num_one (n.isStable_multiple 1)
  have hroot (n : Radicand) : Denotes (.ok (n.multiple 1)) √n.toNat := by simpa using multiple n 1
  rcases h with rfl | rfl | rfl
  · rw [n.product_self, Real.mul_self_sqrt (Nat.cast_nonneg _)]
    simpa using num n.toNat
  · rw [Radicand.multiple_one, one, Radicand.sqrt_toNat_one, one_mul]
    exact hroot m
  · have hsettled : ∀ f ∈ [.num 1, n.multiple 1], f.IsSettled := by
      simpa using ⟨Expr.settled_num 1, (n.isStable_multiple 1).settled⟩
    rw [Radicand.multiple_one, product_perm hsettled (.swap _ _ _) (one n), Radicand.sqrt_toNat_one,
      mul_one]
    exact hroot n

/-- The product of multiples of compatible roots denotes the product. -/
theorem product (ha : Denotes (.ok a) (p * √n.toNat)) (hb : Denotes (.ok b) (q * √m.toNat))
    (h : n.Compatible m) :
    Denotes (Canonical.product [a, b]) (p * √n.toNat * (q * √m.toNat)) := by
  obtain rfl := ha.eq_multiple
  obtain rfl := hb.eq_multiple
  have hroots := product_roots h
  obtain ⟨r, hr, hs, -⟩ := hroots.exists_ok
  rw [hr] at hroots
  have hscale := hroots.scale (p * q)
  obtain ⟨s, hs', -⟩ := hscale.exists_ok
  rw [n.product_multiples m p q hr hs hs', mul_mul_mul_comm, ← Rat.cast_mul]
  exact hs' ▸ hscale

end Denotes

end StackAlgebra
