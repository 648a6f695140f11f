import StackAlgebra.Proofs.Expr.Order
import Mathlib.Data.Rat.Floor
import Mathlib.Algebra.Order.Field.Power
import Mathlib.Algebra.BigOperators.Group.List.Basic

/-!
# Values of rational expressions

An expression made of numbers, constants, variables, sums, products, integer powers, absolute values
and remainders has a rational value, once its variables and constants have one. Evaluation
(`Expr.eval`) is exact and strict: where any part has no value, the whole has none, and a part has
none if it is zero to a power that is not positive or a remainder by zero. `Expr.HasValue` and
`Expr.value` take an evaluation apart, so that lists of values can be added and multiplied without
keeping track of failures.
-/

namespace StackAlgebra

/-- Rational values of the variables, and positive ones of the constants. -/
structure Valuation where
  var : String → Rat
  const : Constant → Rat
  const_pos : ∀ c, 0 < const c

namespace Expr

/-- An integer power; zero has none that is not positive. -/
def powerValue (x : Rat) (k : Int) : Option Rat :=
  if x = 0 ∧ k ≤ 0 then none else some (x ^ k)

/-- What a function of one operand makes of a rational, where that is rational. -/
def unaryValue : UnaryFunction → Rat → Option Rat
  | .neg, x => some (-x)
  | .recip, x => powerValue x (-1)
  | .abs, x => some |x|
  | .square, x => powerValue x 2
  | .sqrt, _ | .ln, _ => none

/-- The remainder that has the sign of the divisor; there is none by zero. -/
def modValue (x d : Rat) : Option Rat :=
  if d = 0 then none else some (x - d * ⌊x / d⌋)

mutual
/-- The value of an expression, if all its parts have one. -/
def eval (v : Valuation) : Expr → Option Rat
  | num q => some q
  | const c => some (v.const c)
  | var x => some (v.var x)
  | sum ts => (evalAll v ts).map List.sum
  | product fs => (evalAll v fs).map List.prod
  | power b e => (eval v b).bind fun x =>
    if e.isInteger then (e.value?).bind fun k => powerValue x k.num else none
  | unary f x => (eval v x).bind (unaryValue f)
  | mod x d => (eval v x).bind fun x => (eval v d).bind (modValue x)
  | log _ _ | angle _ _ _ => none

/-- The values of expressions, if all have one. -/
def evalAll (v : Valuation) : List Expr → Option (List Rat)
  | [] => some []
  | e :: es => (eval v e).bind fun q => (evalAll v es).map (q :: ·)
end

/-- The node is one that rational expressions are made of. -/
def RationalNode : Expr → Prop
  | num _ | const _ | var _ | sum _ | product _ | mod _ _ => True
  | power _ e => e.isInteger = true
  | unary f _ => f = .neg ∨ f = .recip ∨ f = .square ∨ f = .abs
  | log _ _ | angle _ _ _ => False

/-- The node is neither a constant nor a variable. -/
def ClosedNode : Expr → Prop
  | const _ | var _ => False
  | _ => True

/-- The expression is made of numbers, constants, variables, sums, products, negations, reciprocals,
squares, absolute values, remainders and integer powers. -/
def IsRational (e : Expr) : Prop := e.Everywhere RationalNode

/-- The expression contains neither a constant nor a variable. -/
def IsClosed (e : Expr) : Prop := e.Everywhere ClosedNode

/-- The expression has a value. -/
def HasValue (v : Valuation) (e : Expr) : Prop :=
  (e.eval v).isSome = true

/-- The value of an expression, zero if it has none. -/
def value (v : Valuation) (e : Expr) : Rat :=
  (e.eval v).getD 0

variable {v : Valuation} {e b x d : Expr} {es ts fs : List Expr} {q : Rat}

/-- The value of a sum is the sum of the values of its terms. -/
theorem eval_sum : (sum ts).eval v = (evalAll v ts).map List.sum := rfl

/-- The value of a product is the product of the values of its factors. -/
theorem eval_product : (product fs).eval v = (evalAll v fs).map List.prod := rfl

/-- The first value is found before the others. -/
theorem evalAll_cons : evalAll v (e :: es) = (eval v e).bind fun q => (evalAll v es).map (q :: ·) :=
  rfl

/-- A value is the value of what has one. -/
theorem eval_eq_some_iff : e.eval v = some q ↔ e.HasValue v ∧ e.value v = q := by
  unfold HasValue value
  cases e.eval v <;> simp

/-- What has a value evaluates to it. -/
theorem HasValue.eval_eq (h : e.HasValue v) : e.eval v = some (e.value v) :=
  eval_eq_some_iff.mpr ⟨h, rfl⟩

/-- Expressions evaluate together if each has a value. -/
theorem evalAll_eq (h : ∀ e ∈ es, e.HasValue v) : evalAll v es = some (es.map (value v)) := by
  induction es with
  | nil => rfl
  | cons e es ih =>
    rw [evalAll_cons, (h e List.mem_cons_self).eval_eq,
      ih fun d hd => h d (List.mem_cons_of_mem _ hd)]
    rfl

/-- Each of several expressions has a value if they evaluate together. -/
theorem hasValue_of_evalAll {qs : List Rat} (h : evalAll v es = some qs) :
    ∀ e ∈ es, e.HasValue v := by
  induction es generalizing qs with
  | nil => simp
  | cons e es ih =>
    rw [evalAll_cons, Option.bind_eq_some_iff] at h
    obtain ⟨q, hq, h⟩ := h
    obtain ⟨rs, hrs, -⟩ := Option.map_eq_some_iff.mp h
    intro d hd
    rcases List.mem_cons.mp hd with rfl | hd
    · exact (eval_eq_some_iff.mp hq).1
    · exact ih hrs d hd

/-! ## Values by kind -/

/-- A number is its own value. -/
theorem hasValue_num (q : Rat) : (num q).HasValue v := rfl

/-- A number is its own value. -/
@[simp] theorem value_num (q : Rat) : (num q).value v = q := rfl

/-- A sum has a value if its terms have. -/
theorem hasValue_sum_iff : (sum ts).HasValue v ↔ ∀ t ∈ ts, t.HasValue v := by
  constructor
  · intro h
    have h := h.eval_eq
    rw [eval_sum] at h
    obtain ⟨qs, hqs, -⟩ := Option.map_eq_some_iff.mp h
    exact hasValue_of_evalAll hqs
  · intro h
    rw [HasValue, eval_sum, evalAll_eq h]
    rfl

/-- The value of a sum. -/
theorem value_sum (h : ∀ t ∈ ts, t.HasValue v) : (sum ts).value v = (ts.map (value v)).sum := by
  rw [value, eval_sum, evalAll_eq h]
  rfl

/-- A product has a value if its factors have. -/
theorem hasValue_product_iff : (product fs).HasValue v ↔ ∀ f ∈ fs, f.HasValue v := by
  constructor
  · intro h
    have h := h.eval_eq
    rw [eval_product] at h
    obtain ⟨qs, hqs, -⟩ := Option.map_eq_some_iff.mp h
    exact hasValue_of_evalAll hqs
  · intro h
    rw [HasValue, eval_product, evalAll_eq h]
    rfl

/-- The value of a product. -/
theorem value_product (h : ∀ f ∈ fs, f.HasValue v) :
    (product fs).value v = (fs.map (value v)).prod := by
  rw [value, eval_product, evalAll_eq h]
  rfl

/-- An integer power. -/
theorem powerValue_eq_some_iff {x q : Rat} {k : Int} :
    powerValue x k = some q ↔ (x = 0 → 0 < k) ∧ x ^ k = q := by
  unfold powerValue
  split_ifs with h
  · simp [h.1, h.2.not_gt]
  · rw [Option.some.injEq]
    refine ⟨fun hq => ⟨fun h0 => ?_, hq⟩, fun hq => hq.2⟩
    by_contra hk
    exact h ⟨h0, not_lt.mp hk⟩

/-- When a power evaluates, and to what. -/
theorem eval_power_eq_some_iff : (power b e).eval v = some q ↔
    ∃ k : Int, e = num k ∧ b.HasValue v ∧ (b.value v = 0 → 0 < k) ∧ b.value v ^ k = q := by
  refine Option.bind_eq_some_iff.trans ?_
  constructor
  · rintro ⟨x, hx, h⟩
    obtain ⟨hb, rfl⟩ := eval_eq_some_iff.mp hx
    split_ifs at h with hi
    cases e with
    | num p =>
      have hp : ((p.num : Int) : Rat) = p :=
        Rat.coe_int_num_of_den_eq_one (by simpa [isInteger] using hi)
      exact ⟨p.num, by rw [hp], hb, powerValue_eq_some_iff.mp h⟩
    | _ => cases hi
  · rintro ⟨k, rfl, hb, h⟩
    refine ⟨b.value v, hb.eval_eq, ?_⟩
    have hi : (num (k : Rat)).isInteger = true := by simp [isInteger]
    rw [if_pos hi]
    exact powerValue_eq_some_iff.mpr h

/-- When a remainder evaluates, and to what. -/
theorem eval_mod_eq_some_iff : (mod x d).eval v = some q ↔ x.HasValue v ∧ d.HasValue v ∧
    d.value v ≠ 0 ∧ x.value v - d.value v * ⌊x.value v / d.value v⌋ = q := by
  refine Option.bind_eq_some_iff.trans ?_
  constructor
  · rintro ⟨p, hp, h⟩
    obtain ⟨c, hc, h⟩ := Option.bind_eq_some_iff.mp h
    obtain ⟨hx, rfl⟩ := eval_eq_some_iff.mp hp
    obtain ⟨hd, rfl⟩ := eval_eq_some_iff.mp hc
    unfold modValue at h
    split_ifs at h with h0
    exact ⟨hx, hd, h0, Option.some.inj h⟩
  · rintro ⟨hx, hd, h0, rfl⟩
    refine ⟨_, hx.eval_eq, Option.bind_eq_some_iff.mpr ⟨_, hd.eval_eq, ?_⟩⟩
    rw [modValue, if_neg h0]

/-- When a function of one operand evaluates, and to what. -/
theorem eval_unary_eq_some_iff {f : UnaryFunction} : (unary f x).eval v = some q ↔
    x.HasValue v ∧ unaryValue f (x.value v) = some q := by
  refine Option.bind_eq_some_iff.trans ?_
  constructor
  · rintro ⟨p, hp, h⟩
    obtain ⟨hx, rfl⟩ := eval_eq_some_iff.mp hp
    exact ⟨hx, h⟩
  · rintro ⟨hx, h⟩
    exact ⟨_, hx.eval_eq, h⟩

end Expr
end StackAlgebra
