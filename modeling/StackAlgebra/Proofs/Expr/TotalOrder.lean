import StackAlgebra.Proofs.Expr.Measured

/-!
# The canonical order is total

`Expr.compare` and `Expr.sorted` answer for all expressions in which no angle measure is missing,
and there they decide a total order up to the order of terms and factors
(`isTotalOrder_isMeasured`): equal are the expressions that are reorderings of each other, of two
expressions that are not one comes before the other, and a list is sorted to the same expressions,
position by position, in whatever order it is given. Numbers come first, then constants, then
variables, then everything compound.
-/

namespace StackAlgebra.Expr

variable {a b c e : Expr} {es ds : List Expr}

/-! ## Comparing and sorting where no measure is missing -/

/-- Terms and factors of all expressions can be put in order exactly if those of each can. -/
theorem areOrderly_iff : areOrderly es = true ↔ ∀ e ∈ es, e.isOrderly = true := by
  induction es with
  | nil => simp [areOrderly]
  | cons e es ih => simp [areOrderly, ih]

/-- Terms and factors can be put in order where no measure is missing. -/
theorem IsMeasured.isOrderly (h : e.IsMeasured) : e.isOrderly = true := by
  induction e using induction_on_children with
  | step e ih =>
    have child {c : Expr} (hc : c ∈ e.children) : c.isOrderly = true := ih c hc (h.child hc)
    cases e with
    | num q | const c | var x => rfl
    | sum es | product es =>
      rw [Expr.isOrderly, Bool.and_eq_true]
      exact ⟨areOrderly_iff.mpr fun _ hx => child hx,
        areComparable_of_isMeasured fun _ hx => h.child hx⟩
    | unary f x | angle f x m => exact child (c := x) List.mem_cons_self
    | power x y | log x y | mod x y =>
      rw [Expr.isOrderly, Bool.and_eq_true]
      exact ⟨child (by simp), child (by simp)⟩

/-- Two expressions can be compared where no measure is missing. -/
theorem compare_of_isMeasured (ha : a.IsMeasured) (hb : b.IsMeasured) :
    a.compare b = .ok (a.cmp b) := by
  have hab : ∀ e ∈ [a, b], e.IsMeasured := by simp [ha, hb]
  rw [compare, areOrderly_iff.mpr fun e he => (hab e he).isOrderly, areComparable_of_isMeasured hab]
  rfl

/-- Expressions can be sorted where no measure is missing. -/
theorem sorted_of_isMeasured (h : ∀ e ∈ es, e.IsMeasured) : sorted es = .ok (sort es) := by
  rw [sorted, areOrderly_iff.mpr fun e he => (h e he).isOrderly, areComparable_of_isMeasured h]
  simp

/-! ## What the comparison says -/

/-- The first expression comes before the second. -/
def IsBefore (a b : Expr) : Prop :=
  a.compare b = .ok .lt

/-- Neither expression comes before the other. -/
def IsEqual (a b : Expr) : Prop :=
  a.compare b = .ok .eq

/-- Where no measure is missing, before another expression comes what has the smaller key. -/
theorem isBefore_iff (ha : a.IsMeasured) (hb : b.IsMeasured) : IsBefore a b ↔ a.key < b.key := by
  rw [IsBefore, compare_of_isMeasured ha hb, Except.ok.injEq]
  exact cmp_eq_lt_iff

/-- Where no measure is missing, equal expressions are those of one key. -/
theorem isEqual_iff (ha : a.IsMeasured) (hb : b.IsMeasured) : IsEqual a b ↔ a.key = b.key := by
  rw [IsEqual, compare_of_isMeasured ha hb, Except.ok.injEq]
  exact Key.cmp_eq_iff _ _

/-- The class of an expression in the canonical order: numbers, constants, variables, and the
rest. -/
def level : Expr → Nat
  | num _ => 0
  | const _ => 1
  | var _ => 2
  | _ => 3

/-- An expression of a lower class has the smaller key. -/
theorem key_lt_of_level_lt (h : a.level < b.level) : a.key < b.key := by
  -- Ranks count the classes from one, as the rank zero belongs to angle measures.
  have hrank (e : Expr) : e.key.rank = e.level + 1 := by cases e <;> rfl
  exact Key.lt_of_rank_lt (by rw [hrank, hrank]; omega)

/-! ## The order -/

/-- Lists of expressions that permute each other sort to expressions of the same keys. -/
theorem keys_sort_of_perm (h : es.Perm ds) : (sort es).map key = (sort ds).map key := by
  have hp : (sort es).Perm (sort ds) := (perm_sort es).trans (h.trans (perm_sort ds).symm)
  have hes : ((sort es).map key).Pairwise (· ≤ ·) := List.pairwise_map.mpr (pairwise_sort es)
  have hds : ((sort ds).map key).Pairwise (· ≤ ·) := List.pairwise_map.mpr (pairwise_sort ds)
  -- Of ordered keys that permute each other there is only one list.
  exact (hp.map key).eq_of_pairwise' hes hds

/-- The comparison is a total order on the expressions with the property `P`, if reorderings of one
expression count as one. -/
structure IsTotalOrder (P : Expr → Prop) : Prop where
  /-- Equal are the expressions that are equal up to the order of terms and factors at any depth. -/
  isEqual_iff : ∀ a b, P a → P b → (IsEqual a b ↔ Reordered a b)
  /-- Of two expressions one comes before the other, or they are equal, and only one of these. -/
  trichotomy : ∀ a b, P a → P b →
    (IsBefore a b ∧ ¬ IsEqual a b ∧ ¬ IsBefore b a) ∨
    (¬ IsBefore a b ∧ IsEqual a b ∧ ¬ IsBefore b a) ∨
    (¬ IsBefore a b ∧ ¬ IsEqual a b ∧ IsBefore b a)
  /-- What comes before an expression comes before all that come after it. -/
  trans : ∀ a b c, P a → P b → P c → IsBefore a b → IsBefore b c → IsBefore a c
  /-- Numbers come before constants, these before variables, and these before all compound ones. -/
  isBefore_of_level_lt : ∀ a b, P a → P b → a.level < b.level → IsBefore a b
  /-- A list can be sorted; what comes out is the list in another order, in which no expression
  comes before one that stands further to the left; and any other order of the list is sorted to
  equal expressions position by position. -/
  sorted_perm : ∀ es ds, (∀ e ∈ es, P e) → es.Perm ds → ∃ ss ts,
    sorted es = .ok ss ∧ sorted ds = .ok ts ∧ ss.Perm es ∧ ts.Perm ds ∧
    ss.Pairwise (fun a b => ¬ IsBefore b a) ∧ ts.Pairwise (fun a b => ¬ IsBefore b a) ∧
    List.Forall₂ IsEqual ss ts

/-- Of two expressions without missing measures one comes before the other, or they are equal, and
only one of these. -/
theorem trichotomy_of_isMeasured (ha : a.IsMeasured) (hb : b.IsMeasured) :
    (IsBefore a b ∧ ¬ IsEqual a b ∧ ¬ IsBefore b a) ∨
    (¬ IsBefore a b ∧ IsEqual a b ∧ ¬ IsBefore b a) ∨
    (¬ IsBefore a b ∧ ¬ IsEqual a b ∧ IsBefore b a) := by
  rw [isBefore_iff ha hb, isEqual_iff ha hb, isBefore_iff hb ha]
  rcases lt_trichotomy a.key b.key with h | h | h
  · exact .inl ⟨h, h.ne, h.not_gt⟩
  · exact .inr (.inl ⟨h.not_lt, h, h.not_gt⟩)
  · exact .inr (.inr ⟨h.not_gt, h.ne', h⟩)

/-- A sorted list is in order where no measure is missing. -/
theorem pairwise_not_isBefore_sort (h : ∀ e ∈ es, e.IsMeasured) :
    (sort es).Pairwise (fun a b => ¬ IsBefore b a) := by
  have hs : ∀ e ∈ sort es, e.IsMeasured := fun e he => h e ((perm_sort es).mem_iff.mp he)
  refine (pairwise_sort es).imp_of_mem fun {a b} ha hb hab => ?_
  rw [isBefore_iff (hs b hb) (hs a ha)]
  exact not_lt.mpr hab

/-- Lists that permute each other are sorted to equal expressions where no measure is missing. -/
theorem forall₂_isEqual_sort (h : ∀ e ∈ es, e.IsMeasured) (hp : es.Perm ds) :
    List.Forall₂ IsEqual (sort es) (sort ds) := by
  have hkeys := keys_sort_of_perm hp
  have hlength : (sort es).length = (sort ds).length := by
    simpa using congrArg List.length hkeys
  refine List.forall₂_iff_get.mpr ⟨hlength, fun i h1 h2 => ?_⟩
  have ha : ((sort es).get ⟨i, h1⟩).IsMeasured := h _ ((perm_sort es).mem_iff.mp (List.get_mem _ _))
  have hb : ((sort ds).get ⟨i, h2⟩).IsMeasured :=
    h _ (hp.mem_iff.mpr ((perm_sort ds).mem_iff.mp (List.get_mem _ _)))
  have hi : i < ((sort es).map key).length := by simpa using h1
  have hget := List.getElem_of_eq hkeys hi
  rw [List.getElem_map, List.getElem_map] at hget
  exact (isEqual_iff ha hb).mpr hget

/-- The comparison is a total order, up to the order of terms and factors, on the expressions
without missing measures. -/
theorem isTotalOrder_isMeasured : IsTotalOrder IsMeasured where
  isEqual_iff a b ha hb := by
    rw [Expr.isEqual_iff ha hb, ← same_iff]
    exact same_iff_reordered
  trichotomy a b ha hb := trichotomy_of_isMeasured ha hb
  trans a b c ha hb hc hab hbc := by
    rw [isBefore_iff ha hb] at hab
    rw [isBefore_iff hb hc] at hbc
    exact (isBefore_iff ha hc).mpr (hab.trans hbc)
  isBefore_of_level_lt a b ha hb h := (isBefore_iff ha hb).mpr (key_lt_of_level_lt h)
  sorted_perm es ds hes hp := by
    have hds : ∀ d ∈ ds, d.IsMeasured := fun d hd => hes d (hp.mem_iff.mpr hd)
    exact ⟨sort es, sort ds, sorted_of_isMeasured hes, sorted_of_isMeasured hds, perm_sort es,
      perm_sort ds, pairwise_not_isBefore_sort hes, pairwise_not_isBefore_sort hds,
      forall₂_isEqual_sort hes hp⟩

/-- One expression of each class, and two sums that are equal. -/
example : sorted [sum [var "x", num 1], var "x", const .pi, sum [num 1, var "x"], num 5] =
    .ok [num 5, const .pi, var "x", sum [var "x", num 1], sum [num 1, var "x"]] := by
  rfl

end StackAlgebra.Expr
