import StackAlgebra.Radix.Digits
import Mathlib.Algebra.Order.Field.Basic
import Mathlib.Algebra.Order.Ring.Rat
import Mathlib.Algebra.Field.Rat
import Mathlib.Data.Rat.Lemmas
import Mathlib.Data.List.Induction
import Mathlib.Tactic.Ring

/-!
# Digits denote what was written

The digits of a whole number denote it (`ofDigits_digits`). The digits of a proper fraction denote
it up to the remainder of the long division (`ofDigits_fractionDigits`), which is zero after as many
digits as `Radix.placesOf?` says (`dvd_pow_of_placesOf?`); and where it says that none suffice, the
denominator divides no power of the radix (`not_dvd_pow_of_placesOf?`). So a rational has a number
of places exactly if some power of the radix makes it a whole number (`places?_eq_none_iff`).
-/

namespace StackAlgebra.Radix

variable {R : Radix}

/-! ## Whole numbers -/

/-- A radix is positive. -/
theorem val_pos (R : Radix) : 0 < R.val :=
  Nat.lt_of_lt_of_le (by decide) R.two_le

/-- Every radix has only digits that the alphabet has. -/
theorem lt_alphabet {d : ℕ} (h : d < R.val) : d < 64 :=
  Nat.lt_of_lt_of_le h R.le_max

/-- A further digit at the end. -/
theorem ofDigits_concat (ds : List ℕ) (d : ℕ) :
    R.ofDigits (ds ++ [d]) = R.ofDigits ds * R.val + d := by
  simp [ofDigits]

/-- Digits in front weigh as much as the length of what follows. -/
theorem ofDigits_append (ds es : List ℕ) :
    R.ofDigits (ds ++ es) = R.ofDigits ds * R.val ^ es.length + R.ofDigits es := by
  induction es using List.reverseRecOn with
  | nil => simp [ofDigits]
  | append_singleton es e ih =>
    rw [← List.append_assoc, ofDigits_concat, ih, ofDigits_concat, List.length_append,
      List.length_singleton, pow_succ]
    ring

/-- What the digits of `n` in front of others denote. -/
theorem ofDigits_digitsOnto (n : ℕ) (low : List ℕ) :
    R.ofDigits (R.digitsOnto n low) = n * R.val ^ low.length + R.ofDigits low := by
  induction n, low using digitsOnto.induct R with
  | case1 n low h =>
    rw [digitsOnto, if_pos h, ← List.singleton_append, ofDigits_append]; simp [ofDigits]
  | case2 n low h ih =>
    rw [digitsOnto, if_neg h, ih, ← List.singleton_append, ofDigits_append, List.length_append,
      List.length_singleton, Nat.add_comm 1, pow_succ]
    have hn := Nat.div_add_mod n R.val
    calc n / R.val * (R.val ^ low.length * R.val) +
          (R.ofDigits [n % R.val] * R.val ^ low.length + R.ofDigits low)
        = (R.val * (n / R.val) + n % R.val) * R.val ^ low.length + R.ofDigits low := by
          simp only [ofDigits, List.foldl_cons, List.foldl_nil]
          ring
      _ = n * R.val ^ low.length + R.ofDigits low := by rw [hn]

/-- The digits of a number denote it. -/
theorem ofDigits_digits (n : ℕ) : R.ofDigits (R.digits n) = n := by
  rw [digits, ofDigits_digitsOnto]
  simp [ofDigits]

/-- In front of digits stand digits. -/
theorem lt_of_mem_digitsOnto {n : ℕ} {low : List ℕ} (hlow : ∀ d ∈ low, d < R.val) :
    ∀ d ∈ R.digitsOnto n low, d < R.val := by
  induction n, low using digitsOnto.induct R with
  | case1 n low h =>
    rw [digitsOnto, if_pos h]
    exact List.forall_mem_cons.mpr ⟨h, hlow⟩
  | case2 n low h ih =>
    rw [digitsOnto, if_neg h]
    exact ih (List.forall_mem_cons.mpr ⟨Nat.mod_lt n R.val_pos, hlow⟩)

/-- The digits of a number are below the radix. -/
theorem lt_of_mem_digits {n d : ℕ} (h : d ∈ R.digits n) : d < R.val :=
  lt_of_mem_digitsOnto (List.forall_mem_nil _) d h

/-- A number has at least one digit. -/
theorem digits_ne_nil (n : ℕ) : R.digits n ≠ [] := by
  suffices h : ∀ low, R.digitsOnto n low ≠ [] from h []
  intro low
  induction n, low using digitsOnto.induct R with
  | case1 n low h => simp [digitsOnto, h]
  | case2 n low h ih => rwa [digitsOnto, if_neg h]

/-! ## Fractions -/

/-- As many digits are written as asked for. -/
theorem length_fractionDigits (count r d : ℕ) : (R.fractionDigits count r d).length = count := by
  induction count generalizing r with
  | zero => rfl
  | succ count ih => simp [fractionDigits, ih]

/-- The digits of a proper fraction are below the radix. -/
theorem lt_of_mem_fractionDigits {count r d x : ℕ} (hr : r < d)
    (h : x ∈ R.fractionDigits count r d) : x < R.val := by
  induction count generalizing r with
  | zero => simp [fractionDigits] at h
  | succ count ih =>
    rw [fractionDigits, List.mem_cons] at h
    rcases h with rfl | h
    · rw [Nat.div_lt_iff_lt_mul (Nat.zero_lt_of_lt hr), Nat.mul_comm R.val]
      exact Nat.mul_lt_mul_of_pos_right hr R.val_pos
    · exact ih (Nat.mod_lt _ (Nat.zero_lt_of_lt hr)) h

/-- Long division: the digits of `r / d`, and a last remainder, make up `r` moved by as many
places. -/
theorem ofDigits_fractionDigits (count : ℕ) {r d : ℕ} (hr : r < d) :
    ∃ last < d, R.ofDigits (R.fractionDigits count r d) * d + last = r * R.val ^ count := by
  induction count generalizing r with
  | zero => exact ⟨r, hr, by simp [fractionDigits, ofDigits]⟩
  | succ count ih =>
    obtain ⟨last, hlast, h⟩ := ih (Nat.mod_lt (r * R.val) (Nat.zero_lt_of_lt hr))
    refine ⟨last, hlast, ?_⟩
    have hdiv := Nat.div_add_mod (r * R.val) d
    rw [fractionDigits, ← List.singleton_append, ofDigits_append, length_fractionDigits]
    calc (R.ofDigits [r * R.val / d] * R.val ^ count +
            R.ofDigits (R.fractionDigits count (r * R.val % d) d)) * d + last
        = d * (r * R.val / d) * R.val ^ count +
            (R.ofDigits (R.fractionDigits count (r * R.val % d) d) * d + last) := by
          simp only [ofDigits, List.foldl_cons, List.foldl_nil]
          ring
      _ = (d * (r * R.val / d) + r * R.val % d) * R.val ^ count := by rw [h]; ring
      _ = r * R.val ^ (count + 1) := by rw [hdiv, pow_succ]; ring

/-- Where the long division comes out even, the digits denote the fraction. -/
theorem ofDigits_fractionDigits_of_dvd {count r d : ℕ} (hr : r < d) (h : d ∣ r * R.val ^ count) :
    R.ofDigits (R.fractionDigits count r d) * d = r * R.val ^ count := by
  obtain ⟨last, hlast, heq⟩ := ofDigits_fractionDigits (R := R) count hr
  have hd : d ∣ last := (Nat.dvd_add_right (Nat.dvd_mul_left d _)).mp (heq ▸ h)
  rw [Nat.eq_zero_of_dvd_of_lt hd hlast, Nat.add_zero] at heq
  exact heq

/-! ## How many places it takes -/

/-- The number of places is enough: the denominator divides that power of the base. -/
theorem dvd_pow_of_placesOf? {base d k : ℕ} (hd : 0 < d) (h : placesOf? base d = some k) :
    d ∣ base ^ k := by
  induction d using placesOf?.induct base generalizing k with
  | case1 d h1 =>
    rw [Nat.le_antisymm h1 hd]
    exact Nat.one_dvd _
  | case2 d h1 h2 => rw [placesOf?, if_neg h1, if_pos h2] at h; cases h
  | case3 d h1 h2 ih =>
    rw [placesOf?, if_neg h1, if_neg h2, Option.map_eq_some_iff] at h
    obtain ⟨j, hj, rfl⟩ := h
    have hg : 0 < d / d.gcd base :=
      Nat.div_pos (Nat.gcd_le_left base hd) (Nat.gcd_pos_of_pos_left base hd)
    rw [pow_succ', ← Nat.mul_div_cancel' (Nat.gcd_dvd_left d base)]
    exact Nat.mul_dvd_mul (Nat.gcd_dvd_right d base) (ih hg hj)

/-- Where no number of places is enough, what is left of the denominator has nothing in common with
the base. -/
theorem not_dvd_pow_of_placesOf? {base d : ℕ} (h : placesOf? base d = none) (m : ℕ) :
    ¬d ∣ base ^ m := by
  intro hm
  induction d using placesOf?.induct base with
  | case1 d h1 => rw [placesOf?, if_pos h1] at h; cases h
  | case2 d h1 h2 =>
    have hcoprime : Nat.Coprime d base :=
      Nat.le_antisymm h2 (Nat.gcd_pos_of_pos_left base (by omega))
    have h3 := Nat.Coprime.eq_one_of_dvd (hcoprime.pow_right m) hm
    omega
  | case3 d h1 h2 ih =>
    rw [placesOf?, if_neg h1, if_neg h2, Option.map_eq_none_iff] at h
    exact ih h (Nat.dvd_trans (Nat.div_dvd_of_dvd (Nat.gcd_dvd_left d base)) hm)

/-- Some power of the radix makes `q` a whole number. -/
def HasFiniteExpansion (R : Radix) (q : ℚ) : Prop :=
  ∃ m : ℕ, ∃ n : ℤ, q * (R.val : ℚ) ^ m = n

/-- `q` has a finite expansion exactly if its denominator divides a power of the radix. -/
theorem hasFiniteExpansion_iff {q : ℚ} : R.HasFiniteExpansion q ↔ ∃ m, q.den ∣ R.val ^ m := by
  constructor
  · rintro ⟨m, n, h⟩
    refine ⟨m, ?_⟩
    have hnum : q.num * (R.val ^ m : ℕ) = n * q.den := by
      have hq : (q.num : ℚ) * (R.val : ℚ) ^ m = n * q.den := by
        rw [← h, ← Rat.mul_den_eq_num]
        ring
      exact_mod_cast hq
    have hdvd : q.den ∣ q.num.natAbs * R.val ^ m := by
      have := congrArg Int.natAbs hnum
      rw [Int.natAbs_mul, Int.natAbs_mul, Int.natAbs_natCast, Int.natAbs_natCast] at this
      exact ⟨n.natAbs, by rw [this, Nat.mul_comm]⟩
    exact q.reduced.symm.dvd_of_dvd_mul_left hdvd
  · rintro ⟨m, k, hk⟩
    refine ⟨m, q.num * k, ?_⟩
    have hden : (R.val : ℚ) ^ m = q.den * k := by exact_mod_cast hk
    rw [hden, ← mul_assoc, Rat.mul_den_eq_num]
    push_cast
    ring

/-- A rational has a number of places exactly if its expansion ends. -/
theorem places?_eq_none_iff {q : ℚ} : R.places? q = none ↔ ¬R.HasFiniteExpansion q := by
  rw [hasFiniteExpansion_iff, not_exists]
  refine ⟨not_dvd_pow_of_placesOf?, fun h => ?_⟩
  cases hp : placesOf? R.val q.den with
  | none => exact hp
  | some k => exact absurd (dvd_pow_of_placesOf? q.den_pos hp) (h k)

end StackAlgebra.Radix
