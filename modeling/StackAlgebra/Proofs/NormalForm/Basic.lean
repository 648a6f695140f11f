import StackAlgebra.Canonical.Function
import StackAlgebra.Proofs.Expr.Order

/-!
# Normal forms

What the canonical form of an expression looks like at each of its nodes. `Expr.IsNormal` asks of
every node what the canonical form is meant to keep; `Expr.IsReduced` asks the same but for one
thing, that the factors of a product have different bases, which is `Expr.HasDistinctBases`. The two
together are normality (`isNormal_iff`).

`Expr.IsSettled` is the invariant that the proofs carry: reduced at every node, with terms and
factors that can be put in order, and with logarithms, remainders and functions of angles that do
not fold any further. Settled expressions stand in order, so that each can be told from its key
(`IsSettled.eq_of_key_eq`).
-/

namespace StackAlgebra.Expr

/-- The expression is a sum. -/
def isSum : Expr → Bool
  | sum _ => true
  | _ => false

/-- The expression is a power. -/
def isPower : Expr → Bool
  | power _ _ => true
  | _ => false

/-- A term without its coefficient; a number has no such part. -/
def rest? (t : Expr) : Option Expr :=
  t.splitCoefficient.2

/-- The base of a factor. -/
def base (f : Expr) : Expr :=
  f.splitPower.1

/-- No two of the expressions are the same. -/
def AreDistinct (es : List Expr) : Prop :=
  es.Pairwise fun a b => a.same b = false

/-- The factors that are no numbers have different bases. -/
def HaveDistinctBases (fs : List Expr) : Prop :=
  AreDistinct ((nonNumbers fs).map base)

/-! ## Nodes -/

/-- The terms of a sum in normal form. -/
structure NormalSum (ts : List Expr) : Prop where
  two_le : 2 ≤ ts.length
  not_isSum : ∀ t ∈ ts, t.isSum = false
  one_num : (ts.filter isNum).length ≤ 1
  num_ne_zero : ∀ q, num q ∈ ts → q ≠ 0
  increasing : ts.Pairwise (· < ·)
  distinct : AreDistinct (ts.filterMap rest?)

/-- The factors of a product in normal form, up to equal bases. -/
structure ReducedProduct (fs : List Expr) : Prop where
  two_le : 2 ≤ fs.length
  not_isProduct : ∀ f ∈ fs, f.isProduct = false
  one_num : (fs.filter isNum).length ≤ 1
  num_ne_zero : ∀ q, num q ∈ fs → q ≠ 0
  num_ne_one : ∀ q, num q ∈ fs → q ≠ 1
  ordered : fs.Pairwise (· ≤ ·)
  not_scaled_sum : ∀ q ts, ¬ fs.Perm [num q, sum ts]

/-- Base and exponent of a power in normal form. -/
structure NormalPower (b e : Expr) : Prop where
  exponent_ne_zero : e.isZero = false
  exponent_ne_one : e.isOne = false
  base_ne_one : b.isOne = false
  not_isPower : b.isPower = false
  not_isNum_of_isInteger : e.isInteger = true → b.isNum = false
  not_isProduct_of_isInteger : e.isInteger = true → b.isProduct = false
  exponent_of_base_zero : b.isZero = true → e.isNum = false
  part : ∀ q f, b = num q → e = num f → 0 < f ∧ f < 1
  no_root : ∀ q f, b = num q → e = num f → ¬ ∃ r : Rat, r ^ f.den = |q|
  real : ∀ q f, b = num q → e = num f → 0 < q ∨ f.den % 2 = 1

/-- The operand of an absolute value in normal form. -/
structure NormalAbs (x : Expr) : Prop where
  not_isNum : x.isNum = false
  not_isNonnegative : Canonical.isNonnegative x = false
  coefficient : x.splitCoefficient.1 = 1

/-- The node is as the canonical form is meant to have it, up to equal bases in a product. -/
def ReducedNode : Expr → Prop
  | sum ts => NormalSum ts
  | product fs => ReducedProduct fs
  | power b e => NormalPower b e
  | unary .abs x => NormalAbs x
  | unary _ _ => False
  | _ => True

/-- The factors of the node, if it is a product, have different bases. -/
def DistinctNode : Expr → Prop
  | product fs => HaveDistinctBases fs
  | _ => True

/-- The node is as the canonical form is meant to have it. -/
def NormalNode : Expr → Prop
  | product fs => ReducedProduct fs ∧ fs.Pairwise (· < ·) ∧ HaveDistinctBases fs
  | e => ReducedNode e

/-- The node has an order, and does not fold. -/
def FoldedNode : Expr → Prop
  | sum es | product es => areComparable es = true
  | log x b => Canonical.log x b = .ok (log x b)
  | mod x d => Canonical.mod x d = .ok (mod x d)
  | angle f x m => Canonical.angle f x m = .ok (angle f x m)
  | _ => True

/-- Every node is as the canonical form is meant to have it, up to equal bases in a product. -/
def IsReduced (e : Expr) : Prop := e.Everywhere ReducedNode

/-- The factors of every product have different bases. -/
def HasDistinctBases (e : Expr) : Prop := e.Everywhere DistinctNode

/-- Every node is as the canonical form is meant to have it. -/
def IsNormal (e : Expr) : Prop := e.Everywhere NormalNode

/-- Every node is reduced, has an order and does not fold. -/
def IsSettled (e : Expr) : Prop := e.Everywhere fun n => ReducedNode n ∧ FoldedNode n

/-! ## Distinctness -/

/-- Two expressions are not the same exactly if their keys differ. -/
theorem same_eq_false_iff {a b : Expr} : a.same b = false ↔ a.key ≠ b.key := by
  rw [← Bool.not_eq_true, same_iff]

/-- No two expressions are the same exactly if no two keys are equal. -/
theorem areDistinct_iff {es : List Expr} :
    AreDistinct es ↔ es.Pairwise fun a b => a.key ≠ b.key := by
  unfold AreDistinct
  simp only [same_eq_false_iff]

/-- Distinctness does not depend on the order. -/
theorem AreDistinct.perm {es ds : List Expr} (h : AreDistinct es) (hp : es.Perm ds) :
    AreDistinct ds := by
  rw [areDistinct_iff] at h ⊢
  exact (hp.pairwise_iff fun hab => hab.symm).mp h

/-- In an ordered list without repeated keys the order is strict. -/
theorem increasing_of_distinct {es : List Expr} (h : es.Pairwise (· ≤ ·)) (hd : AreDistinct es) :
    es.Pairwise (· < ·) := by
  rw [areDistinct_iff] at hd
  refine (h.and hd).imp ?_
  rintro a b ⟨hle, hne⟩
  exact lt_of_le_of_ne (α := Key) hle hne

/-- Expressions with different bases are different. -/
theorem areDistinct_of_base {es : List Expr} (h : AreDistinct (es.map base)) (hk : ∀ e ∈ es,
    ∀ d ∈ es, e.key = d.key → e = d) : AreDistinct es := by
  unfold AreDistinct at h ⊢
  rw [List.pairwise_map] at h
  refine List.Pairwise.imp_of_mem ?_ h
  intro a b ha hb hab
  rw [same_eq_false_iff] at hab ⊢
  intro heq
  rw [hk a ha b hb heq] at hab
  exact hab rfl

/-! ## At most one number -/

/-- The factors that are no numbers are no numbers. -/
theorem isNum_of_mem_nonNumbers {e : Expr} {es : List Expr} (h : e ∈ nonNumbers es) :
    e.isNum = false := by
  simpa using (List.mem_filter.mp h).2

/-- The factors that are no numbers are factors. -/
theorem mem_of_mem_nonNumbers {e : Expr} {es : List Expr} (h : e ∈ nonNumbers es) : e ∈ es :=
  (List.mem_filter.mp h).1

/-- What is seen to be a number is one. -/
theorem exists_eq_num {e : Expr} (h : e.isNum = true) : ∃ q, e = num q := by
  cases e with
  | num q => exact ⟨q, rfl⟩
  | _ => cases h

/-- An expression that is seen to be a product is one. -/
theorem exists_eq_product {e : Expr} (h : e.isProduct = true) : ∃ fs, e = product fs := by
  cases e with
  | product fs => exact ⟨fs, rfl⟩
  | _ => cases h

/-- There is no number among factors that are no numbers. -/
theorem num_not_mem {es : List Expr} (h : ∀ e ∈ es, e.isNum = false) (q : Rat) : num q ∉ es := by
  intro hq
  cases h _ hq

/-- There are no numbers to take from factors that are no numbers. -/
theorem filter_isNum_eq_nil {es : List Expr} (h : ∀ e ∈ es, e.isNum = false) :
    es.filter isNum = [] :=
  List.filter_eq_nil_iff.mpr fun e he => by simp [h e he]

/-- There is nothing to take from factors that are no numbers. -/
theorem nonNumbers_of_not_isNum {es : List Expr} (h : ∀ e ∈ es, e.isNum = false) :
    nonNumbers es = es :=
  List.filter_eq_self.mpr fun e he => by simp [h e he]

/-- Expressions are different, at most one of them a number, if those that are no numbers are. -/
theorem areDistinct_of_nonNumbers {es : List Expr} (hn : (es.filter isNum).length ≤ 1)
    (hd : AreDistinct (nonNumbers es)) : AreDistinct es := by
  have hp : (es.filter isNum ++ nonNumbers es).Perm es := List.filter_append_perm isNum es
  refine AreDistinct.perm ?_ hp
  rw [areDistinct_iff] at hd ⊢
  refine List.pairwise_append.mpr ⟨?_, hd, ?_⟩
  · match es.filter isNum, hn with
    | [], _ => exact .nil
    | [d], _ => exact List.pairwise_singleton _ _
  · -- A number comes before everything else, and so has another key.
    intro a ha b hb
    obtain ⟨q, rfl⟩ := exists_eq_num (List.mem_filter.mp ha).2
    exact ne_of_lt (α := Key) (num_lt q (isNum_of_mem_nonNumbers hb))

/-- An ordered list with at most one number is that number, if it has any, and the others. -/
theorem eq_of_one_num {es : List Expr} (h : (es.filter isNum).length ≤ 1)
    (ho : es.Pairwise (· ≤ ·)) :
    (∀ e ∈ es, e.isNum = false) ∨ ∃ q, es = num q :: nonNumbers es := by
  cases es with
  | nil => exact .inl (by simp)
  | cons e es =>
    obtain ⟨he, -⟩ := List.pairwise_cons.mp ho
    cases hn : e.isNum with
    | true =>
      right
      have hes : ∀ d ∈ es, d.isNum = false := by
        rw [List.filter_cons_of_pos hn, List.length_cons] at h
        have h0 : es.filter isNum = [] := List.eq_nil_of_length_eq_zero (by omega)
        exact fun d hd => by simpa using List.filter_eq_nil_iff.mp h0 d hd
      obtain ⟨q, rfl⟩ := exists_eq_num hn
      refine ⟨q, ?_⟩
      rw [nonNumbers, List.filter_cons_of_neg (by simp [isNum]), ← nonNumbers,
        nonNumbers_of_not_isNum hes]
    | false =>
      left
      -- A number would come first.
      intro d hd
      rcases List.mem_cons.mp hd with rfl | hd
      · exact hn
      · by_contra hdn
        obtain ⟨q, rfl⟩ := exists_eq_num (Bool.not_eq_false _ ▸ hdn)
        exact absurd (he _ hd) (num_lt q hn).not_ge

end StackAlgebra.Expr
