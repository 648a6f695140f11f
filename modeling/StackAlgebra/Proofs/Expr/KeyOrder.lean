import StackAlgebra.Expr.Key
import Mathlib.Data.List.Sort
import Mathlib.Data.Rat.Defs
import Mathlib.Algebra.Order.Ring.Rat
import Mathlib.Order.Defs.LinearOrder

/-!
# Keys are linearly ordered

`Key.cmp` decides a linear order: it answers `.eq` exactly on equal keys (`cmp_eq_iff`), turns
around with its arguments (`cmp_swap`), and is transitive (`cmp_lt_trans`). The proofs follow the
recursion of `cmp` and `cmpList`; keys of different kinds are ordered by their ranks alone, so that
only keys of one kind need a look at their contents. Sorting keys is then sorting by this order
(`sort_eq_insertionSort`), and two lists of keys sort to the same list exactly if one permutes the
other (`sort_eq_sort_iff`).

Whether keys can be compared at all (`comparable`) does not depend on the side from which one looks,
so neither does it depend on the order of a list whether any two of its keys can
(`areComparable_of_perm`).
-/

namespace StackAlgebra.Key

/-! ## The parts of a key -/

/-- Two rationals compare as equal only if they are. -/
theorem compareRat_eq_iff (x y : Rat) : compareRat x y = .eq ↔ x = y := by
  unfold compareRat
  split_ifs with h1 h2
  · simp [h1.ne]
  · simp [h2.ne']
  · simp only [true_iff]
    exact le_antisymm (not_lt.mp h2) (not_lt.mp h1)

/-- A rational compares as smaller exactly if it is. -/
theorem compareRat_lt_iff (x y : Rat) : compareRat x y = .lt ↔ x < y := by
  unfold compareRat
  split_ifs with h1 h2
  · simp [h1]
  · simp [h1]
  · simp [h1]

/-- The order of rationals turns around with its arguments. -/
theorem compareRat_swap (x y : Rat) : (compareRat x y).swap = compareRat y x := by
  unfold compareRat
  split_ifs with h1 h2 h2 <;> first | rfl | exact absurd h1 (not_lt.mpr h2.le)

/-- Two names compare as equal only if they are. -/
theorem compareName_eq_iff (x y : Option String) : compareName x y = .eq ↔ x = y := by
  cases x <;> cases y <;> simp [compareName]

/-- The order of names turns around with its arguments. -/
theorem compareName_swap (x y : Option String) : (compareName x y).swap = compareName y x := by
  cases x <;> cases y <;> simp [compareName, Std.OrientedOrd.eq_swap.symm]

/-- The order of names is transitive. -/
theorem compareName_lt_trans {x y z : Option String} (hxy : compareName x y = .lt)
    (hyz : compareName y z = .lt) : compareName x z = .lt := by
  cases x <;> cases y <;> cases z <;> simp_all only [compareName, reduceCtorEq]
  exact Std.TransCmp.lt_trans hxy hyz

/-! ## Ranks -/

/-- Keys of different kinds are ordered by their ranks. -/
theorem cmp_of_rank_lt {x y : Key} (h : x.rank < y.rank) : cmp x y = .lt := by
  cases x <;> cases y <;> simp_all [rank, cmp] <;> rfl

/-- A key that comes first has no greater rank. -/
theorem rank_le_of_cmp_lt {x y : Key} (h : cmp x y = .lt) : x.rank ≤ y.rank := by
  cases x <;> cases y <;> simp_all [rank, cmp] <;> cases h

/-! ## The order of keys -/

mutual
/-- The order of keys turns around with its arguments. -/
theorem cmp_swap (x y : Key) : (cmp x y).swap = cmp y x := by
  cases x with
  | node a as =>
    cases y with
    | node b bs =>
      simp only [cmp, Ordering.swap_then, cmpList_swap as bs, Std.OrientedOrd.eq_swap.symm]
    | _ => rfl
  | measure a => cases y <;> first | rfl | exact compareName_swap _ _
  | num a => cases y <;> first | rfl | exact compareRat_swap _ _
  | const a => cases y <;> first | rfl | exact Std.OrientedOrd.eq_swap.symm
  | var a => cases y <;> first | rfl | exact Std.OrientedOrd.eq_swap.symm

/-- Lists of keys compared the other way round. -/
theorem cmpList_swap (xs ys : List Key) : (cmpList xs ys).swap = cmpList ys xs := by
  cases xs with
  | nil => cases ys <;> rfl
  | cons x xs =>
    cases ys with
    | nil => rfl
    | cons y ys => simp only [cmpList, Ordering.swap_then, cmp_swap x y, cmpList_swap xs ys]
end

mutual
/-- Two keys compare as equal only if they are. -/
theorem cmp_eq_iff (x y : Key) : cmp x y = .eq ↔ x = y := by
  cases x with
  | node a as =>
    cases y with
    | node b bs => simp [cmp, Ordering.then_eq_eq, cmpList_eq_iff as bs]
    | _ => simp [cmp, rank]
  | measure a => cases y <;> simp [cmp, rank, compareName_eq_iff]
  | num a => cases y <;> simp [cmp, rank, compareRat_eq_iff]
  | const a => cases y <;> simp [cmp, rank]
  | var a => cases y <;> simp [cmp, rank]

/-- Lists of keys are equivalent exactly if they are equal. -/
theorem cmpList_eq_iff (xs ys : List Key) : cmpList xs ys = .eq ↔ xs = ys := by
  cases xs with
  | nil => cases ys <;> simp [cmpList]
  | cons x xs =>
    cases ys with
    | nil => simp [cmpList]
    | cons y ys => simp [cmpList, Ordering.then_eq_eq, cmp_eq_iff x y, cmpList_eq_iff xs ys]
end

mutual
/-- The order of keys is transitive. -/
theorem cmp_lt_trans {x y z : Key} (hxy : cmp x y = .lt) (hyz : cmp y z = .lt) : cmp x z = .lt := by
  -- The ranks do not fall on the way, and decide unless all three are equal.
  have h1 := rank_le_of_cmp_lt hxy
  have h2 := rank_le_of_cmp_lt hyz
  rcases Nat.lt_or_eq_of_le (h1.trans h2) with h | h
  · exact cmp_of_rank_lt h
  · -- All three are of one kind.
    cases x with
    | node a as =>
      cases y <;> cases z <;> simp only [rank] at h h1 h2 <;> try omega
      rename_i b bs c cs
      simp only [cmp, Ordering.then_eq_lt, Std.LawfulEqOrd.compare_eq_iff_eq] at hxy hyz ⊢
      rcases hxy with hab | ⟨rfl, hab⟩ <;> rcases hyz with hbc | ⟨rfl, hbc⟩
      · exact .inl (Std.TransCmp.lt_trans hab hbc)
      · exact .inl hab
      · exact .inl hbc
      · exact .inr ⟨rfl, cmpList_lt_trans hab hbc⟩
    | measure a =>
      cases y <;> cases z <;> simp only [rank] at h h1 h2 <;> try omega
      exact compareName_lt_trans hxy hyz
    | num a =>
      cases y <;> cases z <;> simp only [rank] at h h1 h2 <;> try omega
      simp only [cmp, compareRat_lt_iff] at hxy hyz ⊢
      exact hxy.trans hyz
    | const a =>
      cases y <;> cases z <;> simp only [rank] at h h1 h2 <;> try omega
      simp only [cmp] at hxy hyz ⊢
      exact Std.TransCmp.lt_trans hxy hyz
    | var a =>
      cases y <;> cases z <;> simp only [rank] at h h1 h2 <;> try omega
      simp only [cmp] at hxy hyz ⊢
      exact Std.TransCmp.lt_trans hxy hyz

/-- The order of lists of keys is transitive. -/
theorem cmpList_lt_trans {xs ys zs : List Key} (hxy : cmpList xs ys = .lt)
    (hyz : cmpList ys zs = .lt) : cmpList xs zs = .lt := by
  cases xs with
  | nil => cases ys <;> cases zs <;> simp_all [cmpList]
  | cons x xs =>
    cases ys with
    | nil => simp [cmpList] at hxy
    | cons y ys =>
      cases zs with
      | nil => simp [cmpList] at hyz
      | cons z zs =>
        -- Lists are decided by their first keys, and by the others where these are equal.
        simp only [cmpList, Ordering.then_eq_lt, cmp_eq_iff] at hxy hyz ⊢
        rcases hxy with hab | ⟨rfl, hab⟩ <;> rcases hyz with hbc | ⟨rfl, hbc⟩
        · exact .inl (cmp_lt_trans hab hbc)
        · exact .inl hab
        · exact .inl hbc
        · exact .inr ⟨rfl, cmpList_lt_trans hab hbc⟩
end

/-- Two keys are in order if the first does not come after the second. -/
instance : LinearOrder Key where
  le x y := cmp x y ≠ .gt
  lt x y := cmp x y = .lt
  le_refl x := by simp [(cmp_eq_iff x x).mpr rfl]
  le_trans x y z hxy hyz := by
    rcases hc : cmp x y with _ | _ | _
    · rcases hd : cmp y z with _ | _ | _
      · simp [cmp_lt_trans hc hd]
      · rw [(cmp_eq_iff y z).mp hd] at hc
        simp [hc]
      · exact absurd hd hyz
    · rw [(cmp_eq_iff x y).mp hc]
      exact hyz
    · exact absurd hc hxy
  le_antisymm x y hxy hyx := by
    rw [← cmp_swap x y] at hyx
    rcases hc : cmp x y with _ | _ | _
    · simp [hc] at hyx
    · exact (cmp_eq_iff x y).mp hc
    · exact absurd hc hxy
  le_total x y := by
    rw [← cmp_swap x y]
    cases cmp x y <;> simp
  lt_iff_le_not_ge x y := by
    rw [← cmp_swap x y]
    cases cmp x y <;> simp
  toDecidableLE x y := inferInstanceAs (Decidable (cmp x y ≠ .gt))
  toDecidableLT x y := inferInstanceAs (Decidable (cmp x y = .lt))
  toDecidableEq x y := decidable_of_iff _ (cmp_eq_iff x y)

/-- The comparison that puts a key first is the strict order. -/
theorem cmp_eq_lt_iff {x y : Key} : cmp x y = .lt ↔ x < y := Iff.rfl

/-- A key of lesser rank comes first. -/
theorem lt_of_rank_lt {x y : Key} (h : x.rank < y.rank) : x < y := cmp_of_rank_lt h

/-! ## Sorting -/

/-- To place a key is to insert it in order. -/
theorem insert_eq_orderedInsert (x : Key) (ys : List Key) :
    insert x ys = ys.orderedInsert (· ≤ ·) x := by
  induction ys with
  | nil => rfl
  | cons y ys ih =>
    rw [List.orderedInsert_cons]
    simp only [insert, ih, cmp_eq_lt_iff]
    split_ifs with h1 h2 h2
    · exact absurd h1 (not_lt.mpr h2)
    · rfl
    · rfl
    · exact absurd (not_le.mp h2) h1

/-- To sort keys is to insert one after the other. -/
theorem sort_eq_insertionSort (xs : List Key) : sort xs = xs.insertionSort (· ≤ ·) := by
  induction xs with
  | nil => rfl
  | cons x xs ih =>
    rw [List.insertionSort_cons, ← ih, ← insert_eq_orderedInsert]
    rfl

/-- Sorting permutes. -/
theorem perm_sort (xs : List Key) : (sort xs).Perm xs := by
  rw [sort_eq_insertionSort]
  exact List.perm_insertionSort _ xs

/-- Sorted keys are in order. -/
theorem pairwise_sort (xs : List Key) : (sort xs).Pairwise (· ≤ ·) := by
  rw [sort_eq_insertionSort]
  exact List.pairwise_insertionSort _ xs

/-- Keys that are in order stay as they are. -/
theorem sort_of_pairwise {xs : List Key} (h : xs.Pairwise (· ≤ ·)) : sort xs = xs := by
  rw [sort_eq_insertionSort]
  exact h.insertionSort_eq

/-- Two lists of keys sort to the same list exactly if one permutes the other. -/
theorem sort_eq_sort_iff {xs ys : List Key} : sort xs = sort ys ↔ xs.Perm ys := by
  constructor
  · intro h
    exact (perm_sort xs).symm.trans (h ▸ perm_sort ys)
  · intro h
    -- Of ordered lists that permute each other there is only one.
    exact ((perm_sort xs).trans (h.trans (perm_sort ys).symm)).eq_of_pairwise'
      (pairwise_sort xs) (pairwise_sort ys)

/-! ## Keys that can be compared -/

mutual
/-- It does not matter from which side one asks whether two keys can be compared. -/
theorem comparable_comm (x y : Key) : comparable x y = comparable y x := by
  cases x with
  | node a as =>
    cases y with
    | node b bs =>
      simp only [comparable, comparableList_comm as bs]
      by_cases h : a = b <;> simp [h, eq_comm]
    | _ => rfl
  | measure a => cases y <;> first | rfl | exact Bool.beq_comm
  | _ => cases y <;> rfl

/-- Whether lists of keys can be compared does not depend on which comes first. -/
theorem comparableList_comm (xs ys : List Key) : comparableList xs ys = comparableList ys xs := by
  cases xs with
  | nil => cases ys <;> rfl
  | cons x xs =>
    cases ys with
    | nil => rfl
    | cons y ys =>
      simp only [comparableList, cmp_eq_iff, comparable_comm x y, comparableList_comm xs ys]
      by_cases h : x = y <;> simp [h, eq_comm]
end

/-- Any two of the keys are comparable, said of pairs. -/
theorem areComparable_iff {xs : List Key} :
    areComparable xs = true ↔ xs.Pairwise (fun x y => comparable x y = true) := by
  induction xs with
  | nil => simp [areComparable]
  | cons x xs ih => simp [areComparable, ih]

/-- Whether any two keys of a list can be compared does not depend on their order. -/
theorem areComparable_of_perm {xs ys : List Key} (h : xs.Perm ys) (hx : areComparable xs = true) :
    areComparable ys = true := by
  rw [areComparable_iff] at hx ⊢
  refine (h.pairwise_iff ?_).mp hx
  intro x y hxy
  rwa [comparable_comm]

end StackAlgebra.Key
