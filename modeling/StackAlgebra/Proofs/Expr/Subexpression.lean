import StackAlgebra.Expr.Basic

/-!
# Subexpressions

The parts that an expression is made of directly are its `children`. `Expr.Everywhere P` says that
`P` holds of an expression and of all that it is made of, at any depth. What holds of an expression
whenever it holds of its children holds of every expression (`Expr.induction_on_children`).
-/

namespace StackAlgebra.Expr

/-- The expressions that an expression is made of directly, from left to right. -/
def children : Expr → List Expr
  | num _ | const _ | var _ => []
  | sum es | product es => es
  | unary _ x | angle _ x _ => [x]
  | power x y | log x y | mod x y => [x, y]

/-- A number has no children. -/
@[simp] theorem children_num (q : Rat) : (num q).children = [] := rfl

/-- A constant has no children. -/
@[simp] theorem children_const (c : Constant) : (const c).children = [] := rfl

/-- A variable has no children. -/
@[simp] theorem children_var (x : String) : (var x).children = [] := rfl

/-- The children of a sum are its terms. -/
@[simp] theorem children_sum (es : List Expr) : (sum es).children = es := rfl

/-- The children of a product are its factors. -/
@[simp] theorem children_product (es : List Expr) : (product es).children = es := rfl

/-- The children of a power are base and exponent. -/
@[simp] theorem children_power (x y : Expr) : (power x y).children = [x, y] := rfl

/-- The child of a function is its operand. -/
@[simp] theorem children_unary (f : UnaryFunction) (x : Expr) : (unary f x).children = [x] := rfl

/-- The children of a logarithm are argument and base. -/
@[simp] theorem children_log (x y : Expr) : (log x y).children = [x, y] := rfl

/-- The children of a remainder are its operands. -/
@[simp] theorem children_mod (x y : Expr) : (mod x y).children = [x, y] := rfl

/-- The child of a function of an angle is the angle. -/
@[simp] theorem children_angle (f : AngleFunction) (x : Expr) (m : Option String) :
    (angle f x m).children = [x] := rfl

/-- A child is smaller than the expression that it belongs to. -/
theorem sizeOf_lt_of_mem_children {c e : Expr} (h : c ∈ e.children) : sizeOf c < sizeOf e := by
  cases e with
  | sum es | product es =>
    have h1 := List.sizeOf_lt_of_mem (show c ∈ es from h)
    simp only [sum.sizeOf_spec, product.sizeOf_spec]
    omega
  | num _ | const _ | var _ => cases h
  | unary _ x | angle _ x _ =>
    rw [List.mem_singleton.mp h]
    simp only [unary.sizeOf_spec, angle.sizeOf_spec]
    omega
  | power x y | log x y | mod x y =>
    simp only [children_power, children_log, children_mod, List.mem_cons, List.not_mem_nil,
      or_false] at h
    simp only [power.sizeOf_spec, log.sizeOf_spec, mod.sizeOf_spec]
    rcases h with rfl | rfl <;> omega

/-- What holds of an expression whenever it holds of its children holds of every expression. -/
theorem induction_on_children {P : Expr → Prop} (step : ∀ e, (∀ c ∈ e.children, P c) → P e)
    (e : Expr) : P e :=
  step e fun c _ => induction_on_children step c
termination_by sizeOf e
decreasing_by exact sizeOf_lt_of_mem_children ‹_›

/-- `P` holds of the expression and of everything that it is made of. -/
inductive Everywhere (P : Expr → Prop) : Expr → Prop where
  | intro {e : Expr} (here : P e) (below : ∀ c ∈ e.children, Everywhere P c) : Everywhere P e

namespace Everywhere

variable {P Q : Expr → Prop} {e c : Expr}

/-- It holds of the expression itself. -/
theorem here (h : Everywhere P e) : P e := by
  cases h with
  | intro here _ => exact here

/-- It holds everywhere in each child. -/
theorem child (h : Everywhere P e) (hc : c ∈ e.children) : Everywhere P c := by
  cases h with
  | intro _ below => exact below c hc

/-- It holds everywhere in each of two children. -/
theorem pair {x y : Expr} (hx : Everywhere P x) (hy : Everywhere P y) :
    ∀ c ∈ [x, y], Everywhere P c :=
  List.forall_mem_cons.mpr ⟨hx, List.forall_mem_singleton.mpr hy⟩

/-- It holds everywhere if it holds of the expression and everywhere in the children. -/
theorem iff_children : Everywhere P e ↔ P e ∧ ∀ c ∈ e.children, Everywhere P c :=
  ⟨fun h => ⟨h.here, fun _ hc => h.child hc⟩, fun h => .intro h.1 h.2⟩

/-- What follows from `P` at every place holds everywhere if `P` does. -/
theorem mono (hPQ : ∀ e, P e → Q e) (h : Everywhere P e) : Everywhere Q e := by
  induction h with
  | intro here _ ih => exact .intro (hPQ _ here) ih

/-- What a change to all parts makes of `P` at every place holds everywhere after it. -/
theorem map {t : Expr → Expr} (ht : ∀ e, (t e).children = e.children.map t)
    (hPQ : ∀ e, P e → Q (t e)) (h : Everywhere P e) : Everywhere Q (t e) := by
  induction h with
  | @intro e here _ ih =>
    refine .intro (hPQ e here) ?_
    rw [ht]
    exact List.forall_mem_map.mpr ih

/-- What holds everywhere holds everywhere in each part. -/
theorem everywhere (h : Everywhere P e) : Everywhere (Everywhere P) e := by
  induction h with
  | intro here below ih => exact .intro (.intro here below) ih

/-- What does not hold everywhere fails at the expression itself or somewhere in a child. -/
theorem not_everywhere (h : ¬ Everywhere P e) : ¬ P e ∨ ∃ c ∈ e.children, ¬ Everywhere P c := by
  by_cases hP : P e
  · -- If it held in all children, it would hold everywhere.
    right
    apply Classical.byContradiction
    intro hn
    apply h
    refine .intro hP fun c hc => Classical.byContradiction fun hnc => ?_
    exact hn ⟨c, hc, hnc⟩
  · exact .inl hP

/-- Two properties hold everywhere together exactly if each does. -/
theorem and_iff : Everywhere (fun e => P e ∧ Q e) e ↔ Everywhere P e ∧ Everywhere Q e := by
  constructor
  · exact fun h => ⟨h.mono fun _ => And.left, h.mono fun _ => And.right⟩
  · rintro ⟨hP, hQ⟩
    induction hP with
    | intro here _ ih => exact .intro ⟨here, hQ.here⟩ fun c hc => ih c hc (hQ.child hc)

end Everywhere
end StackAlgebra.Expr
