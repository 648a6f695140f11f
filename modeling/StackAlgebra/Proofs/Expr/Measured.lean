import StackAlgebra.Proofs.Expr.Order

/-!
# Expressions with angle measures

There is no order between an angle measure and none, so that terms and factors in which some
functions of angles have a measure and others have none may be put in no order at all.
`Expr.IsMeasured` says that no measure is missing at any depth. Such expressions can always be
compared (`IsMeasured.areComparable`).
-/

namespace StackAlgebra

namespace Key

mutual
/-- No angle measure is missing in the key. -/
def isMeasured : Key → Bool
  | measure m => m.isSome
  | node _ cs => areMeasured cs
  | _ => true

/-- No angle measure is missing in the keys. -/
def areMeasured : List Key → Bool
  | [] => true
  | x :: xs => isMeasured x && areMeasured xs
end

/-- No measure is missing in keys if none is missing in any of them. -/
theorem areMeasured_iff {xs : List Key} :
    areMeasured xs = true ↔ ∀ x ∈ xs, isMeasured x = true := by
  induction xs with
  | nil => simp [areMeasured]
  | cons x xs ih => simp [areMeasured, ih]

mutual
/-- Keys without missing measures can be compared. -/
theorem comparable_of_isMeasured (x y : Key) (hx : isMeasured x = true) (hy : isMeasured y = true) :
    comparable x y = true := by
  cases x with
  | measure m =>
    cases y with
    | measure n =>
      rw [isMeasured] at hx hy
      rw [comparable, hx, hy]
      rfl
    | _ => rfl
  | node a as =>
    cases y with
    | node b bs =>
      rw [comparable, Bool.or_eq_true]
      exact .inr (comparableList_of_areMeasured as bs hx hy)
    | _ => rfl
  | _ => cases y <;> rfl

/-- Lists of keys without missing measures can be compared. -/
theorem comparableList_of_areMeasured (xs ys : List Key) (hx : areMeasured xs = true)
    (hy : areMeasured ys = true) : comparableList xs ys = true := by
  cases xs with
  | nil => rfl
  | cons x xs =>
    cases ys with
    | nil => rfl
    | cons y ys =>
      rw [areMeasured, Bool.and_eq_true] at hx hy
      rw [comparableList]
      split_ifs
      · exact comparableList_of_areMeasured xs ys hx.2 hy.2
      · exact comparable_of_isMeasured x y hx.1 hy.1
end

end Key

namespace Expr

variable {e : Expr} {es : List Expr}

/-- A function to or from angles has a measure. -/
def MeasuredNode : Expr → Prop
  | angle _ _ m => m.isSome = true
  | _ => True

/-- Every function to or from angles has a measure. -/
def IsMeasured (e : Expr) : Prop := e.Everywhere MeasuredNode

/-- An expression other than a function of angles has measures if its children have. -/
theorem isMeasured_iff_children (e : Expr) (h : MeasuredNode e) :
    e.IsMeasured ↔ ∀ c ∈ e.children, c.IsMeasured :=
  Everywhere.iff_children.trans (and_iff_right h)

/-- A number contains no angle. -/
@[simp] theorem isMeasured_num (q : Rat) : (num q).IsMeasured :=
  (isMeasured_iff_children (num q) trivial).mpr (List.forall_mem_nil _)

/-- A constant contains no angle. -/
@[simp] theorem isMeasured_const (c : Constant) : (const c).IsMeasured :=
  (isMeasured_iff_children (const c) trivial).mpr (List.forall_mem_nil _)

/-- A variable contains no angle. -/
@[simp] theorem isMeasured_var (x : String) : (var x).IsMeasured :=
  (isMeasured_iff_children (var x) trivial).mpr (List.forall_mem_nil _)

/-- A sum has its measures if all terms have them. -/
@[simp] theorem isMeasured_sum_iff : (sum es).IsMeasured ↔ ∀ e ∈ es, e.IsMeasured :=
  isMeasured_iff_children (sum es) trivial

/-- A product has its measures if all factors have them. -/
@[simp] theorem isMeasured_product_iff : (product es).IsMeasured ↔ ∀ e ∈ es, e.IsMeasured :=
  isMeasured_iff_children (product es) trivial

/-- A power has its measures if base and exponent have them. -/
@[simp] theorem isMeasured_power_iff {b : Expr} :
    (power b e).IsMeasured ↔ b.IsMeasured ∧ e.IsMeasured :=
  (isMeasured_iff_children (power b e) trivial).trans (by simp)

/-- A function has its measures if its operand has them. -/
@[simp] theorem isMeasured_unary_iff {f : UnaryFunction} : (unary f e).IsMeasured ↔ e.IsMeasured :=
  (isMeasured_iff_children (unary f e) trivial).trans (by simp)

/-- A logarithm has its measures if argument and base have them. -/
@[simp] theorem isMeasured_log_iff {b : Expr} :
    (log e b).IsMeasured ↔ e.IsMeasured ∧ b.IsMeasured :=
  (isMeasured_iff_children (log e b) trivial).trans (by simp)

/-- A remainder has its measures if both operands have them. -/
@[simp] theorem isMeasured_mod_iff {d : Expr} :
    (mod e d).IsMeasured ↔ e.IsMeasured ∧ d.IsMeasured :=
  (isMeasured_iff_children (mod e d) trivial).trans (by simp)

/-- A function of an angle needs a measure of its own. -/
@[simp] theorem isMeasured_angle_iff {f : AngleFunction} {m : Option String} :
    (angle f e m).IsMeasured ↔ m.isSome = true ∧ e.IsMeasured :=
  Everywhere.iff_children.trans (and_congr_right' List.forall_mem_singleton)

/-- No measure is missing in the key where every function of angles has one. -/
theorem IsMeasured.isMeasured_key (h : e.IsMeasured) : e.key.isMeasured = true := by
  induction e using induction_on_children with
  | step e ih =>
    have child {c : Expr} (hc : c ∈ e.children) : c.key.isMeasured = true := ih c hc (h.child hc)
    -- The keys of terms and factors are those of the children, sorted.
    have sorted {es : List Expr} (hes : ∀ x ∈ es, x ∈ e.children) :
        Key.areMeasured (Key.sort (keys es)) = true := by
      rw [Key.areMeasured_iff, keys_eq_map]
      intro k hk
      obtain ⟨x, hx, rfl⟩ := List.mem_map.mp ((Key.perm_sort _).mem_iff.mp hk)
      exact child (hes x hx)
    cases e with
    | sum ts => exact sorted fun _ hx => hx
    | product fs => exact sorted fun _ hx => hx
    | num _ | const _ | var _ => rfl
    | power x y | log x y | mod x y =>
      rw [key, Key.isMeasured, Key.areMeasured_iff]
      simpa using ⟨child (by simp), child (by simp)⟩
    | unary f x =>
      rw [key, Key.isMeasured, Key.areMeasured_iff]
      simpa using child (by simp)
    | angle f x m =>
      have hm : (Key.measure m).isMeasured = true := h.here
      rw [key, Key.isMeasured, Key.areMeasured_iff]
      simpa using ⟨child (by simp), hm⟩

/-- Expressions whose functions of angles have measures can be compared. -/
theorem areComparable_of_isMeasured (h : ∀ e ∈ es, e.IsMeasured) : areComparable es = true := by
  rw [areComparable_iff]
  refine List.pairwise_of_forall_mem_list fun a ha b hb => ?_
  exact Key.comparable_of_isMeasured _ _ (h a ha).isMeasured_key (h b hb).isMeasured_key

/-- An expression whose functions of angles have measures has an order. -/
theorem IsMeasured.hasOrder (h : e.IsMeasured) : e.hasOrder = true := by
  cases e with
  | sum es => exact areComparable_of_isMeasured fun _ hx => h.child hx
  | product es => exact areComparable_of_isMeasured fun _ hx => h.child hx
  | _ => rfl

end Expr
end StackAlgebra
