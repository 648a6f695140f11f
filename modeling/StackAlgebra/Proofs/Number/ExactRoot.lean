import StackAlgebra.Number.Division
import StackAlgebra.Proofs.Number.Root
import StackAlgebra.Proofs.Termination.Product

/-!
# The search for roots

Asked for from outside, `Root.checkedFloor` and `Root.checkedExact` answer at every degree from one
on: the floor of the root of a natural number, and the root of a rational that is not negative, if
it has a rational one (`finds_roots`). Both searches come to an end. Newton's iteration, where it is
needed, falls from estimate to estimate and stops at the floor of the root, neither before nor after
it.
-/

namespace StackAlgebra.Root

open Budgeted (EndsWith)
open Canonical (floorWithin rootWithin endsWith_floor endsWith_root)

variable {k : ℕ}

/-- The search for the `k`-th root of `n` ends without an error and finds its floor `r`. -/
structure FindsFloor (k n r : ℕ) : Prop where
  answer : checkedFloor n k = .ok r
  ends : EndsWith (fun budget => floorWithin budget k n) (.ok r)
  le : r ^ k ≤ n
  lt : n < (r + 1) ^ k
  /-- Unless the root is known at once, Newton's iteration falls to it, and nothing is divided by
  zero. -/
  newton : 2 ≤ n → k < bitLength n → ∃ turns, FallsTo k n (start k (bitLength n)) turns r ∧
    ∀ i ≤ turns, 0 < (step k n)^[i] (start k (bitLength n))

/-- The search for the `k`-th root of `q` ends without an error, and finds the rational that is not
negative and has the power `q`; if there is none, it finds none. -/
structure FindsRoot (k : ℕ) (q : ℚ) (found : Option ℚ) : Prop where
  answer : checkedExact q k = .ok found
  ends : EndsWith (fun budget => rootWithin budget k q) (.ok found)
  root : ∀ s, found = some s ↔ 0 ≤ s ∧ s ^ k = q

/-- A natural number has a floor of its root. -/
theorem checkedFloor_natCast (hk : k ≠ 0) (n : ℕ) : checkedFloor n k = .ok (floor k n) := by
  have hpos : ¬ (k : ℤ) = 0 := by omega
  have hnonneg : ¬ (k : ℤ) < 0 := by omega
  have hn : ¬ (n : ℤ) < 0 := by omega
  unfold checkedFloor
  rw [if_neg hn]
  split_ifs with hsmall
  · -- Zero and one are their own roots.
    have hlt : n < 2 := by omega
    rw [Int.toNat_natCast, floor, if_pos hlt]
  · rw [Int.toNat_natCast, Int.toNat_natCast]

/-- A rational that is not negative has a root, or none. -/
theorem checkedExact_of_nonneg (hk : k ≠ 0) {q : ℚ} (hq : 0 ≤ q) :
    checkedExact q k = .ok (rational? k q) := by
  have hnum : checkedFloor q.num k = .ok (floor k q.num.natAbs) := by
    rw [← checkedFloor_natCast hk, Int.natAbs_of_nonneg (Rat.num_nonneg.mpr hq)]
  have hpos : ¬ (q = 0 ∧ (k : ℤ) < 0) := by omega
  unfold checkedExact
  rw [hnum, checkedFloor_natCast hk]
  simp only [bind, Except.bind, if_neg hpos, Int.toNat_natCast]
  rfl

/-- A root of a rational is found exactly if it is one that is not negative. -/
theorem rational?_eq_some_iff (hk : k ≠ 0) {q : ℚ} (hq : 0 ≤ q) (s : ℚ) :
    rational? k q = some s ↔ 0 ≤ s ∧ s ^ k = q := by
  constructor
  · exact rational?_eq_some hq
  · rintro ⟨hs, hpow⟩
    cases hr : rational? k q with
    | none => exact absurd ⟨s, hpow⟩ ((rational?_eq_none_iff hk hq).mp hr)
    | some r =>
      obtain ⟨hr0, hrpow⟩ := rational?_eq_some hq hr
      exact congrArg some ((pow_left_inj₀ hr0 hs hk).mp (hrpow.trans hpow.symm))

/-- Integer and rational roots are exact: at every degree from one on the search for the root of a
natural number finds its floor, and that for the root of a rational that is not negative finds it if
there is one. -/
theorem finds_roots (hk : 1 ≤ k) :
    (∀ n : ℕ, ∃ r, FindsFloor k n r) ∧ ∀ q : ℚ, 0 ≤ q → ∃ found, FindsRoot k q found := by
  have hne : k ≠ 0 := by omega
  refine ⟨fun n => ⟨floor k n, ?_⟩, fun q hq => ⟨rational? k q, ?_⟩⟩
  · obtain ⟨hle, hlt⟩ := floor_spec hne n
    refine ⟨checkedFloor_natCast hne n, endsWith_floor k n, hle, hlt, fun htwo hbits => ?_⟩
    obtain ⟨turns, hfalls⟩ := exists_fallsTo hne (lt_start_pow hne n)
    have hfloor : floor k n = descend k n (start k (bitLength n)) := by
      rw [floor, if_neg (by omega), if_neg (by omega)]
    exact ⟨turns, hfloor ▸ hfalls, hfalls.pos (by omega)⟩
  · exact ⟨checkedExact_of_nonneg hne hq, endsWith_root k q, rational?_eq_some_iff hne hq⟩

/-- The cube root of 8/27 is found. -/
theorem finds_roots_cube : 1 ≤ 3 ∧ (0 : ℚ) ≤ 8 / 27 ∧ (2 / 3 : ℚ) ^ 3 = 8 / 27 ∧
    checkedExact (8 / 27) 3 = .ok (some (2 / 3)) := by
  have hq : (0 : ℚ) ≤ 8 / 27 := by norm_num
  have hpow : (2 / 3 : ℚ) ^ 3 = 8 / 27 := by norm_num
  obtain ⟨found, hfound⟩ := (finds_roots (k := 3) (by decide)).2 _ hq
  obtain rfl := (hfound.root _).mpr ⟨by norm_num, hpow⟩
  exact ⟨by decide, hq, hpow, hfound.answer⟩

end StackAlgebra.Root
