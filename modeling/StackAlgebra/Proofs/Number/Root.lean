import StackAlgebra.Number.Root
import Mathlib.Analysis.SpecialFunctions.Pow.NthRootLemmas
import Mathlib.Data.Rat.Lemmas
import Mathlib.Algebra.Order.Field.Basic
import Mathlib.Algebra.Order.Ring.Rat
import Mathlib.Algebra.Field.Rat

/-!
# Roots are exact

`Root.floor k n` is the largest `r` with `r ^ k ≤ n` (`floor_spec`). Newton's iteration keeps above
the root, since the mean of `k` numbers whose product is `n` is not below it, and where it stops it
has come down to it. `Root.rational?` finds the root of a rational wherever there is one
(`rational?_eq_none_iff`): a power of a reduced fraction is reduced, so that numerator and
denominator have to be powers on their own.
-/

namespace StackAlgebra

/-- The magnitude of a rational. -/
theorem rat_abs_eq (q : Rat) : q.abs = |q| := by
  rcases le_total 0 q with h | h
  · rw [Rat.abs_of_nonneg h, abs_of_nonneg h]
  · rw [Rat.abs_of_nonpos h, abs_of_nonpos h]

namespace Root

/-- One turn of Newton's iteration for the `k`-th root of `n`: the estimate after `x`. -/
def step (k n x : ℕ) : ℕ :=
  ((k - 1) * x + n / x ^ (k - 1)) / k

/-- The iteration goes on from the next estimate if that is smaller. -/
theorem descend_eq (k n x : ℕ) :
    descend k n x = if step k n x < x then descend k n (step k n x) else x := by
  rw [descend]
  rfl

/-- The estimate after a positive one is not below the root. -/
theorem lt_step_pow {k n x : ℕ} (hk : k ≠ 0) (hx : x ≠ 0) : n < (step k n x + 1) ^ k := by
  obtain ⟨j, rfl⟩ := Nat.exists_eq_succ_of_ne_zero hk
  have h := Nat.nthRoot.lt_pow_go_succ_aux (n := j) (a := n) hx
  rwa [Nat.add_comm (n / x ^ j)] at h

/-- An estimate that is not followed by a smaller one is not above the root. -/
theorem pow_le_of_le_step {k n x : ℕ} (hk : k ≠ 0) (h : x ≤ step k n x) : x ^ k ≤ n := by
  obtain ⟨j, rfl⟩ := Nat.exists_eq_succ_of_ne_zero hk
  have h1 : (j + 1) * x ≤ j * x + n / x ^ j := by
    have := (Nat.le_div_iff_mul_le (Nat.succ_pos j)).mp h
    rwa [Nat.mul_comm] at this
  have h2 : x ≤ n / x ^ j := by
    rw [Nat.add_mul, Nat.one_mul] at h1
    omega
  rw [pow_succ']
  exact Nat.mul_le_of_le_div _ _ _ h2

/-- From above the root, Newton's iteration comes down to it. -/
theorem descend_spec {k n x : ℕ} (hk : k ≠ 0) (h : n < (x + 1) ^ k) :
    descend k n x ^ k ≤ n ∧ n < (descend k n x + 1) ^ k := by
  induction x using Nat.strong_induction_on with
  | _ x ih =>
    rw [descend_eq]
    split_ifs with hstep
    · exact ih _ hstep (lt_step_pow hk (Nat.ne_zero_of_lt hstep))
    · exact ⟨pow_le_of_le_step hk (not_lt.mp hstep), h⟩

/-- Newton's iteration from `x` on ends with the estimate `r` after so many turns: no estimate is
below the root, each is smaller than the one before, and the one after `r` would not be. -/
structure FallsTo (k n x turns r : ℕ) : Prop where
  last : (step k n)^[turns] x = r
  above : ∀ i ≤ turns, n < ((step k n)^[i] x + 1) ^ k
  falls : ∀ i < turns, (step k n)^[i + 1] x < (step k n)^[i] x
  stops : r ≤ step k n r

/-- No estimate is zero, so that nothing is divided by zero on the way to the root of a positive
number. -/
theorem FallsTo.pos {k n x turns r : ℕ} (h : FallsTo k n x turns r) (hn : n ≠ 0) :
    ∀ i ≤ turns, 0 < (step k n)^[i] x := by
  intro i hi
  have habove := h.above i hi
  by_contra hzero
  rw [Nat.eq_zero_of_not_pos hzero, Nat.zero_add, one_pow] at habove
  omega

/-- From above the root, Newton's iteration falls until it ends. -/
theorem exists_fallsTo {k n x : ℕ} (hk : k ≠ 0) (h : n < (x + 1) ^ k) :
    ∃ turns, FallsTo k n x turns (descend k n x) := by
  induction x using Nat.strong_induction_on with
  | _ x ih =>
    rw [descend_eq]
    split_ifs with hstep
    · -- One turn more than from the next estimate.
      obtain ⟨turns, hrest⟩ := ih _ hstep (lt_step_pow hk (Nat.ne_zero_of_lt hstep))
      refine ⟨turns + 1, hrest.last, fun i hi => ?_, fun i hi => ?_, hrest.stops⟩
      · cases i with
        | zero => exact h
        | succ i => exact hrest.above i (by omega)
      · cases i with
        | zero => exact hstep
        | succ i => exact hrest.falls i (by omega)
    · exact ⟨0, rfl, fun i hi => by rwa [Nat.le_zero.mp hi],
        fun i hi => absurd hi (Nat.not_lt_zero i), not_lt.mp hstep⟩

/-- A number has more than `m` binary digits exactly if it is not below `2 ^ m`. -/
theorem lt_bitLength_iff {m n : ℕ} : m < bitLength n ↔ 2 ^ m ≤ n := by
  unfold bitLength
  split_ifs with h
  · have hpos : 0 < 2 ^ m := Nat.two_pow_pos m
    omega
  · rw [Nat.lt_succ_iff, Nat.le_log2 h]

/-- A number is below the power of two with as many digits. -/
theorem lt_two_pow_bitLength {n : ℕ} : n < 2 ^ bitLength n :=
  not_le.mp fun h => lt_irrefl _ (lt_bitLength_iff.mpr h)

/-- Newton's iteration starts above the root. -/
theorem lt_start_pow {k : ℕ} (hk : k ≠ 0) (n : ℕ) : n < (start k (bitLength n) + 1) ^ k := by
  have hbits : bitLength n ≤ (bitLength n + k - 1) / k * k := by
    have hd := Nat.div_add_mod (bitLength n + k - 1) k
    have hm := Nat.mod_lt (bitLength n + k - 1) (Nat.pos_of_ne_zero hk)
    rw [Nat.mul_comm] at hd
    omega
  calc n < 2 ^ bitLength n := lt_two_pow_bitLength
    _ ≤ 2 ^ ((bitLength n + k - 1) / k * k) := Nat.pow_le_pow_right (by norm_num) hbits
    _ = start k (bitLength n) ^ k := pow_mul _ _ _
    _ ≤ (start k (bitLength n) + 1) ^ k := Nat.pow_le_pow_left (Nat.le_succ _) k

/-- The floor of a root. -/
theorem floor_spec {k : ℕ} (hk : k ≠ 0) (n : ℕ) : floor k n ^ k ≤ n ∧ n < (floor k n + 1) ^ k := by
  unfold floor
  split_ifs with h1 h2
  · have hn : n = 0 ∨ n = 1 := by omega
    rcases hn with rfl | rfl
    · simp [hk]
    · simp [Nat.one_lt_two_pow hk]
  · rw [one_pow]
    refine ⟨by omega, ?_⟩
    calc n < 2 ^ bitLength n := lt_two_pow_bitLength
      _ ≤ 2 ^ k := Nat.pow_le_pow_right (by norm_num) h2
  · exact descend_spec hk (lt_start_pow hk n)

/-- The root of a power is what was raised. -/
theorem floor_pow {k : ℕ} (hk : k ≠ 0) (r : ℕ) : floor k (r ^ k) = r := by
  obtain ⟨h1, h2⟩ := floor_spec hk (r ^ k)
  have h3 := (Nat.pow_le_pow_iff_left hk).mp h1
  have h4 := (Nat.pow_lt_pow_iff_left hk).mp h2
  omega

/-- A root that was found is one, and is not negative. -/
theorem rational?_eq_some {k : ℕ} {q r : Rat} (hq : 0 ≤ q) (h : rational? k q = some r) :
    0 ≤ r ∧ r ^ k = q := by
  unfold rational? at h
  dsimp only at h
  split_ifs at h with hr
  obtain ⟨hn, hd⟩ := Bool.and_eq_true_iff.mp hr
  have hn' : floor k q.num.natAbs ^ k = q.num.natAbs := isRoot_iff.mp hn
  have hd' : floor k q.den ^ k = q.den := isRoot_iff.mp hd
  rw [← Option.some.inj h]
  refine ⟨div_nonneg (Nat.cast_nonneg _) (Nat.cast_nonneg _), ?_⟩
  rw [div_pow, ← Nat.cast_pow, ← Nat.cast_pow, hn', hd']
  have hnum : ((q.num.natAbs : ℕ) : ℤ) = q.num := Int.natAbs_of_nonneg (Rat.num_nonneg.mpr hq)
  rw [← Int.cast_natCast q.num.natAbs, hnum]
  exact Rat.num_div_den q

/-- No root is found exactly if there is none. -/
theorem rational?_eq_none_iff {k : ℕ} {q : Rat} (hk : k ≠ 0) (hq : 0 ≤ q) :
    rational? k q = none ↔ ¬ ∃ r : Rat, r ^ k = q := by
  constructor
  · rintro h ⟨r, rfl⟩
    -- Numerator and denominator of a power are powers.
    have hn : floor k (r ^ k).num.natAbs = r.num.natAbs := by
      rw [Rat.num_pow, Int.natAbs_pow, floor_pow hk]
    have hd : floor k (r ^ k).den = r.den := by
      rw [Rat.den_pow, floor_pow hk]
    have h1 : isRoot k r.num.natAbs (r ^ k).num.natAbs = true :=
      isRoot_iff.mpr (by rw [Rat.num_pow, Int.natAbs_pow])
    have h2 : isRoot k r.den (r ^ k).den = true := isRoot_iff.mpr (by rw [Rat.den_pow])
    simp only [rational?, hn, hd, h1, h2, Bool.and_self, if_true, reduceCtorEq] at h
  · intro h
    cases hr : rational? k q with
    | none => rfl
    | some r => exact absurd ⟨r, (rational?_eq_some hq hr).2⟩ h

end Root
end StackAlgebra
