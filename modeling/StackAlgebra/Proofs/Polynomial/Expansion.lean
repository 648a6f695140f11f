import StackAlgebra.Expr.Basic
import Mathlib.Algebra.MonoidAlgebra.Basic
import Mathlib.Algebra.GroupWithZero.Units.Basic
import Mathlib.Data.Rat.Cast.Defs

/-!
# Laurent polynomials

A Laurent polynomial has a rational coefficient for every vector of integer exponents, with an
exponent for each constant and each variable (`Laurent`). Expressions that are built from monomials
by addition, negation and multiplication by rationals (`Expr.IsLaurent`) expand to one
(`Expr.expansion`); constants and variables are atoms that have nothing to do with each other. A
monomial has a single term, which is a rational times a product of powers of atoms, and so have its
powers (`Laurent.zpow_single`).
-/

namespace StackAlgebra

open AddMonoidAlgebra (single)

/-- A constant or a variable. -/
inductive Atom where
  | const (c : Constant)
  | var (x : String)
deriving DecidableEq

/-- The atom as an expression. -/
def Atom.toExpr : Atom → Expr
  | const c => .const c
  | var x => .var x

/-- Laurent polynomials in constants and variables with rational coefficients. -/
abbrev Laurent := AddMonoidAlgebra ℚ (Atom →₀ ℤ)

namespace Laurent

/-- The atom as a Laurent polynomial. -/
noncomputable def ofAtom (a : Atom) : Laurent :=
  single (.single a 1) 1

/-- An integer power. Where there is no inverse, negative powers are zero. -/
noncomputable def zpow (p : Laurent) : ℤ → Laurent
  | .ofNat n => p ^ n
  | .negSucc n => Ring.inverse p ^ (n + 1)

/-- Terms multiply by their coefficients and add up their exponents. -/
theorem prod_map_single (ps : List (ℚ × (Atom →₀ ℤ))) :
    (ps.map fun p => (single p.2 p.1 : Laurent)).prod =
      single (ps.map Prod.snd).sum (ps.map Prod.fst).prod := by
  induction ps with
  | nil => rfl
  | cons p ps ih =>
    simp only [List.map_cons, List.prod_cons, List.sum_cons, ih, AddMonoidAlgebra.single_mul_single]

/-- The inverse of a term has the inverse coefficient and the opposite exponents. -/
theorem inverse_single (v : Atom →₀ ℤ) (c : ℚ) :
    Ring.inverse (single v c : Laurent) = single (-v) c⁻¹ := by
  by_cases hc : c = 0
  · rw [hc, inv_zero, AddMonoidAlgebra.single_zero, AddMonoidAlgebra.single_zero, Ring.inverse_zero]
  · have hmul : (single v c : Laurent) * single (-v) c⁻¹ = 1 := by
      rw [AddMonoidAlgebra.single_mul_single, add_neg_cancel, mul_inv_cancel₀ hc,
        AddMonoidAlgebra.one_def]
    have hunit : IsUnit (single v c : Laurent) := .of_mul_eq_one _ hmul
    exact hunit.mul_left_cancel ((Ring.mul_inverse_cancel _ hunit).trans hmul.symm)

/-- A number times a Laurent polynomial is the multiple. -/
theorem single_zero_mul (c : ℚ) (p : Laurent) : single 0 c * p = c • p := by
  ext v
  exact AddMonoidAlgebra.coeff_single_zero_mul p c v

/-- The power of a term has the power of the coefficient and the multiples of the exponents. -/
theorem zpow_single (v : Atom →₀ ℤ) (c : ℚ) (k : ℤ) :
    zpow (single v c) k = single (k • v) (c ^ k) := by
  cases k with
  | ofNat n =>
    rw [zpow, AddMonoidAlgebra.single_pow, Int.ofNat_eq_natCast, natCast_zsmul, zpow_natCast]
  | negSucc n =>
    rw [zpow, inverse_single, AddMonoidAlgebra.single_pow, negSucc_zsmul, zpow_negSucc, neg_nsmul,
      inv_pow]

end Laurent

namespace Expr

mutual
/-- The Laurent polynomial that an expression expands to; zero for expressions that expand to
none. -/
noncomputable def expansion : Expr → Laurent
  | num q => single 0 q
  | const c => .ofAtom (.const c)
  | var x => .ofAtom (.var x)
  | sum ts => (expansions ts).sum
  | product fs => (expansions fs).prod
  | power b e =>
    (e.value?).elim 0 fun k => if k.den = 1 then Laurent.zpow (expansion b) k.num else 0
  | unary f x => if f = .neg then -expansion x else 0
  | log _ _ | mod _ _ | angle _ _ _ => 0

/-- The Laurent polynomials that expressions expand to. -/
noncomputable def expansions : List Expr → List Laurent
  | [] => []
  | e :: es => expansion e :: expansions es
end

/-- A number, a constant or a variable, a product of monomials, or an integer power of one. -/
inductive IsMonomial : Expr → Prop where
  | num (q : ℚ) : IsMonomial (num q)
  | const (c : Constant) : IsMonomial (const c)
  | var (x : String) : IsMonomial (var x)
  | product {fs : List Expr} (h : ∀ f ∈ fs, IsMonomial f) : IsMonomial (product fs)
  | power {b : Expr} (h : IsMonomial b) (k : ℤ) : IsMonomial (power b (num k))

/-- A monomial, a sum of Laurent polynomials, the negative of one, or a product of one with any
numbers. -/
inductive IsLaurent : Expr → Prop where
  | monomial {e : Expr} (h : IsMonomial e) : IsLaurent e
  | sum {ts : List Expr} (h : ∀ t ∈ ts, IsLaurent t) : IsLaurent (sum ts)
  | neg {e : Expr} (h : IsLaurent e) : IsLaurent (unary .neg e)
  | multiple {ns ms : List Expr} {e : Expr}
      (hn : ∀ n ∈ ns ++ ms, n.isNum = true) (h : IsLaurent e) :
    IsLaurent (product (ns ++ e :: ms))

variable {b x : Expr} {es ts fs : List Expr}

/-- Expressions expand one by one. -/
theorem expansions_eq_map (es : List Expr) : expansions es = es.map expansion := by
  induction es with
  | nil => rfl
  | cons e es ih => rw [expansions, ih, List.map_cons]

/-- A sum expands to the sum. -/
theorem expansion_sum : (sum ts).expansion = (ts.map expansion).sum := by
  rw [expansion, expansions_eq_map]

/-- A product expands to the product. -/
theorem expansion_product : (product fs).expansion = (fs.map expansion).prod := by
  rw [expansion, expansions_eq_map]

/-- An integer power expands to the power. -/
theorem expansion_power (k : ℤ) : (power b (num k)).expansion = Laurent.zpow b.expansion k := by
  rw [expansion]
  show (if (k : ℚ).den = 1 then Laurent.zpow b.expansion (k : ℚ).num else 0) = _
  rw [if_pos (Rat.den_intCast k), Rat.num_intCast]

/-- A negation expands to the negative. -/
theorem expansion_neg : (unary .neg x).expansion = -x.expansion := by
  rw [expansion, if_pos rfl]

/-- Numbers expand to their product. -/
theorem prod_expansion_of_isNum (h : ∀ n ∈ es, n.isNum = true) :
    (es.map expansion).prod = single 0 (coefficientOf es) := by
  induction es with
  | nil => rfl
  | cons n es ih =>
    obtain ⟨hn, hes⟩ := List.forall_mem_cons.mp h
    cases n with
    | num q =>
      rw [List.map_cons, List.prod_cons, ih hes, expansion, AddMonoidAlgebra.single_mul_single,
        add_zero, coefficientOf]
    | _ => cases hn

end Expr
end StackAlgebra
