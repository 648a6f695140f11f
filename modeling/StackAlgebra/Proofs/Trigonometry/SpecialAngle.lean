import StackAlgebra.Proofs.Trigonometry.Surd
import Mathlib.Analysis.SpecialFunctions.Trigonometric.Complex
import Mathlib.Tactic.IntervalCases

/-!
# Values at special angles

Half turns and reflections bring every angle to the first quadrant (`ReducesTo`), and the tables
list the angles there whose sines and tangents they have, with their values. So `SpecialAngle.sine?`
and `SpecialAngle.tangent?` find exactly the special angles (`isSome_sine?`, `isSome_tangent?`), and
what they find denotes the sine or tangent (`denotes_sine`, `denotes_tangent`).
-/

namespace StackAlgebra

open StackAlgebra.Expr (num)
open StackAlgebra.Canonical
open StackAlgebra.Canonical.SpecialAngle

variable {t v w : Rat} {n : Bool} {y : ℝ} {e : Expr}

/-! ## Turns -/

/-- The rational is whole. -/
def IsWhole (q : Rat) : Prop :=
  ∃ k : ℤ, q = k

/-- Whole numbers more make no difference. -/
theorem isWhole_add_int (q : Rat) (k : ℤ) : IsWhole (q + k) ↔ IsWhole q := by
  constructor
  · rintro ⟨j, hj⟩
    exact ⟨j - k, by push_cast; linear_combination hj⟩
  · rintro ⟨j, hj⟩
    exact ⟨j + k, by push_cast; linear_combination hj⟩

/-- Nor does the sign. -/
theorem isWhole_neg (q : Rat) : IsWhole (-q) ↔ IsWhole q := by
  constructor
  · rintro ⟨j, hj⟩
    exact ⟨-j, by push_cast; linear_combination -hj⟩
  · rintro ⟨j, hj⟩
    exact ⟨-j, by push_cast; linear_combination -hj⟩

/-- Half turns more make no difference to an even multiple. -/
theorem isWhole_mul_add_half {q : Rat} (hq : IsWhole (q / 2)) (t : Rat) (k : ℤ) :
    IsWhole (q * (t + k / 2)) ↔ IsWhole (q * t) := by
  obtain ⟨i, hi⟩ := hq
  have hshift : q * (t + k / 2) = q * t + (i * k : ℤ) := by
    push_cast
    linear_combination k * hi
  rw [hshift, isWhole_add_int]

/-- The angle is a whole number of twelfths or of eighths of a full turn. -/
def IsSpecial (t : Rat) : Prop :=
  IsWhole (12 * t) ∨ IsWhole (8 * t)

/-- The special angles are the same up to quarter turns. -/
theorem isSpecial_add_quarters (t : Rat) (k : ℤ) : IsSpecial (t + k / 4) ↔ IsSpecial t := by
  have h12 : 12 * (t + k / 4) = 12 * t + (3 * k : ℤ) := by
    push_cast
    ring
  have h8 : 8 * (t + k / 4) = 8 * t + (2 * k : ℤ) := by
    push_cast
    ring
  rw [IsSpecial, h12, h8, isWhole_add_int, isWhole_add_int, IsSpecial]

/-- The special angles are the same up to full turns. -/
theorem isSpecial_add_int (t : Rat) (k : ℤ) : IsSpecial (t + k) ↔ IsSpecial t := by
  have h : t + k = t + (4 * k : ℤ) / 4 := by
    push_cast
    ring
  rw [h, isSpecial_add_quarters]

/-- The special angles are the same up to the sign. -/
theorem isSpecial_neg (t : Rat) : IsSpecial (-t) ↔ IsSpecial t := by
  rw [IsSpecial, mul_neg, mul_neg, isWhole_neg, isWhole_neg, IsSpecial]

/-- Special angles are whole numbers of twenty-fourths of a full turn. -/
theorem IsSpecial.isWhole (h : IsSpecial t) : IsWhole (24 * t) := by
  rcases h with ⟨k, hk⟩ | ⟨k, hk⟩
  · exact ⟨2 * k, by push_cast; linear_combination 2 * hk⟩
  · exact ⟨3 * k, by push_cast; linear_combination 3 * hk⟩

/-- The angle is an odd number of quarter turns. -/
def IsPole (t : Rat) : Prop :=
  ∃ k : ℤ, 4 * t = 2 * k + 1

/-- The poles of the tangent are the same up to half turns. -/
theorem isPole_add_half (t : Rat) (k : ℤ) : IsPole (t + k / 2) ↔ IsPole t := by
  constructor
  · rintro ⟨j, hj⟩
    exact ⟨j - k, by push_cast; linear_combination hj⟩
  · rintro ⟨j, hj⟩
    exact ⟨j + k, by push_cast; linear_combination hj⟩

/-- The poles of the tangent are the same up to the sign. -/
theorem isPole_neg (t : Rat) : IsPole (-t) ↔ IsPole t := by
  constructor
  · rintro ⟨j, hj⟩
    exact ⟨-j - 1, by push_cast; linear_combination -hj⟩
  · rintro ⟨j, hj⟩
    exact ⟨-j - 1, by push_cast; linear_combination -hj⟩

/-- An angle of `t` turns in radians. -/
noncomputable def radians (t : Rat) : ℝ :=
  (2 * t : Rat) * Real.pi

/-- Half turns are multiples of `π`. -/
theorem radians_add_half (t : Rat) (k : ℤ) : radians (t + k / 2) = radians t + k * Real.pi := by
  simp only [radians]
  push_cast
  ring

/-- Full turns are multiples of `2π`. -/
theorem radians_add_int (t : Rat) (k : ℤ) : radians (t + k) = radians t + k * (2 * Real.pi) := by
  simp only [radians]
  push_cast
  ring

/-- A half turn minus an angle. -/
theorem radians_half_sub (t : Rat) : radians (1 / 2 - t) = Real.pi - radians t := by
  simp only [radians]
  push_cast
  ring

/-- The opposite angle. -/
theorem radians_neg (t : Rat) : radians (-t) = -radians t := by
  simp only [radians]
  push_cast
  ring

/-- Full turns keep the sine. -/
theorem sin_radians_add_int (t : Rat) (k : ℤ) :
    Real.sin (radians (t + k)) = Real.sin (radians t) := by
  rw [radians_add_int, Real.sin_add_int_mul_two_pi]

/-- Full turns keep the cosine. -/
theorem cos_radians_add_int (t : Rat) (k : ℤ) :
    Real.cos (radians (t + k)) = Real.cos (radians t) := by
  rw [radians_add_int, Real.cos_add_int_mul_two_pi]

/-- A half turn negates the sine. -/
theorem sin_radians_sub_half (t : Rat) :
    Real.sin (radians t) = -Real.sin (radians (t - 1 / 2)) := by
  have h : radians (t - 1 / 2) = radians t - Real.pi := by
    simp only [radians]
    push_cast
    ring
  rw [h, Real.sin_sub_pi, neg_neg]

/-- Half turns keep the tangent. -/
theorem tan_radians_add_half (t : Rat) (k : ℤ) :
    Real.tan (radians (t + k / 2)) = Real.tan (radians t) := by
  rw [radians_add_half, Real.tan_add_int_mul_pi]

/-- A part of a half turn is a part of `π`. -/
theorem radians_eq_pi_div {d : ℝ} (h : t * (2 * d) = 1) : radians t = Real.pi / d := by
  have hd : d ≠ 0 := by
    rintro rfl
    simp at h
  rw [radians, eq_div_iff hd]
  push_cast
  linear_combination Real.pi * h

/-- The sine a quarter turn ahead is the cosine. -/
theorem sin_radians_add_quarter (t : Rat) :
    Real.sin (radians (t + 1 / 4)) = Real.cos (radians t) := by
  have h : radians (t + 1 / 4) = radians t + Real.pi / 2 := by
    simp only [radians]
    push_cast
    ring
  rw [h, Real.sin_add_pi_div_two]

/-- The real with the sign. -/
def signed (n : Bool) (y : ℝ) : ℝ :=
  if n then -y else y

/-! ## Reduction to the first quadrant -/

/-- The angle `w` is in the first quadrant, and up to half turns it is `t` or its opposite. -/
structure ReducesTo (t w : Rat) : Prop where
  nonneg : 0 ≤ w
  le : w ≤ 1 / 4
  half_turns : ∃ k : ℤ, w = t + k / 2 ∨ w = -t + k / 2

/-- Half turns more make no difference. -/
theorem ReducesTo.add (h : ReducesTo v w) (k : ℤ) : ReducesTo (v + k / 2) w := by
  obtain ⟨h0, h1, j, hj⟩ := h
  refine ⟨h0, h1, ?_⟩
  rcases hj with rfl | rfl
  · refine ⟨j - k, .inl ?_⟩
    push_cast
    ring
  · refine ⟨j + k, .inr ?_⟩
    push_cast
    ring

/-- The cosine of the reduced angle is the same up to the sign. -/
theorem ReducesTo.exists_cos (h : ReducesTo t w) :
    ∃ n, Real.cos (radians t) = signed n (Real.cos (radians w)) := by
  obtain ⟨-, -, k, hk⟩ := h
  have hcos : Real.cos (radians w) = (-1) ^ k * Real.cos (radians t) := by
    rcases hk with rfl | rfl
    · rw [radians_add_half, Real.cos_add_int_mul_pi]
    · rw [radians_add_half, Real.cos_add_int_mul_pi, radians_neg, Real.cos_neg]
  rcases Int.even_or_odd k with heven | hodd
  · refine ⟨false, ?_⟩
    rw [hcos, heven.neg_one_zpow, one_mul]
    rfl
  · refine ⟨true, ?_⟩
    rw [hcos, hodd.neg_one_zpow, neg_one_mul, signed, if_pos rfl, neg_neg]

/-- An even multiple of the angle is whole exactly if that of the reduced angle is. -/
theorem ReducesTo.isWhole_iff (h : ReducesTo t w) {N : Rat} (hN : IsWhole (N / 2)) :
    IsWhole (N * t) ↔ IsWhole (N * w) := by
  obtain ⟨-, -, k, rfl | rfl⟩ := h
  · rw [isWhole_mul_add_half hN]
  · rw [isWhole_mul_add_half hN, mul_neg, isWhole_neg]

/-- The reduced angle is a right angle exactly for odd numbers of quarter turns. -/
theorem ReducesTo.eq_quarter_iff (h : ReducesTo t w) : w = 1 / 4 ↔ IsPole t := by
  obtain ⟨h0, h1, k, hk⟩ := h
  constructor
  · rintro rfl
    rcases hk with hk | hk
    · exact ⟨-k, by push_cast; linear_combination -4 * hk⟩
    · exact ⟨k - 1, by push_cast; linear_combination 4 * hk⟩
  · rintro ⟨j, hj⟩
    -- Four times the angle is odd, and at most one.
    obtain ⟨i, hi⟩ : ∃ i : ℤ, 4 * w = 2 * i + 1 := by
      rcases hk with rfl | rfl
      · exact ⟨j + k, by push_cast; linear_combination hj⟩
      · exact ⟨k - j - 1, by push_cast; linear_combination -hj⟩
    have hi0 : (0 : ℚ) ≤ 2 * i + 1 := by linarith
    have hi1 : (2 * i + 1 : ℚ) ≤ 1 := by linarith
    have hi : i = 0 := by
      have h0 : 0 ≤ 2 * i + 1 := by exact_mod_cast hi0
      have h1 : 2 * i + 1 ≤ 1 := by exact_mod_cast hi1
      omega
    subst hi
    push_cast at *
    linarith

/-- Reflection brings an angle of the first half turn to the first quadrant. -/
theorem reducesTo_reflect (h0 : 0 ≤ v) (h1 : v < 1 / 2) : ReducesTo v (reflect v) := by
  unfold reflect
  split_ifs with h
  · refine ⟨by linarith, by linarith, 1, .inr ?_⟩
    push_cast
    ring
  · exact ⟨h0, by linarith, 0, .inl (by simp)⟩

/-- Reflection keeps the sine. -/
theorem sin_reflect (v : Rat) : Real.sin (radians (reflect v)) = Real.sin (radians v) := by
  unfold reflect
  split_ifs
  · rw [radians_half_sub, Real.sin_pi_sub]
  · rfl

/-- Reflection of an angle in the second quadrant negates the tangent. -/
theorem tan_reflect (v : Rat) :
    Real.tan (radians v) = signed (1 / 4 < v) (Real.tan (radians (reflect v))) := by
  rw [reflect, signed]
  by_cases h : 1 / 4 < v
  · rw [if_pos h, decide_eq_true h, if_pos rfl, radians_half_sub, Real.tan_pi_sub, neg_neg]
  · rw [if_neg h, decide_eq_false h, if_neg Bool.false_ne_true]

/-- An angle is whole periods and what is left of it, which is less than a period. -/
theorem reduce_spec {p : Rat} (hp : 0 < p) (t : Rat) :
    0 ≤ reduce t p ∧ reduce t p < p ∧ ∃ k : ℤ, t = reduce t p + p * k := by
  have hfract : reduce t p = p * Int.fract (t / p) := by
    have hself : t = p * (t / p) := (mul_div_cancel₀ t hp.ne').symm
    rw [Int.fract, mul_sub, ← hself]
    rfl
  refine ⟨?_, ?_, ⌊t / p⌋, ?_⟩
  · rw [hfract]
    exact mul_nonneg hp.le (Int.fract_nonneg _)
  · rw [hfract]
    exact mul_lt_of_lt_one_right hp (Int.fract_lt_one _)
  · exact (sub_add_cancel t _).symm

/-- The sine is looked up at an angle of the first quadrant, with a sign. -/
theorem sine?_eq (t : Rat) : ∃ n w, sine? t = lookup? sines n w ∧ ReducesTo t w ∧
    Real.sin (radians t) = signed n (Real.sin (radians w)) := by
  obtain ⟨h0, h1, k, hk⟩ := reduce_spec one_pos t
  rw [one_mul] at hk
  -- Full turns change nothing.
  have hsin : Real.sin (radians t) = Real.sin (radians (reduce t 1)) := by
    conv_lhs => rw [hk, sin_radians_add_int]
  have hadd {w : Rat} (j : ℤ) (h : ReducesTo (reduce t 1 - j / 2) w) : ReducesTo t w := by
    have hturn : t = reduce t 1 - j / 2 + (j + 2 * k : ℤ) / 2 := by
      push_cast
      linear_combination hk
    rw [hturn]
    exact h.add _
  rw [sine?]
  split_ifs with hhalf
  · refine ⟨true, _, rfl, hadd 1 ?_, ?_⟩
    · rw [Int.cast_one]
      exact reducesTo_reflect (by linarith) (by linarith)
    · rw [hsin, sin_reflect, sin_radians_sub_half]
      rfl
  · refine ⟨false, _, rfl, hadd 0 ?_, ?_⟩
    · rw [Int.cast_zero, zero_div, sub_zero]
      exact reducesTo_reflect h0 (by linarith)
    · rw [hsin, sin_reflect]
      rfl

/-- The tangent has a pole at an odd quarter turn, and else it is looked up at an angle of the first
quadrant, with a sign. -/
theorem tangent?_eq (t : Rat) : ∃ w, ReducesTo t w ∧
    (w = 1 / 4 → tangent? t = .error .tangentPole) ∧
    (w ≠ 1 / 4 → ∃ n, tangent? t = .ok (lookup? tangents n w) ∧
      Real.tan (radians t) = signed n (Real.tan (radians w))) := by
  obtain ⟨h0, h1, k, hk⟩ := reduce_spec one_half_pos t
  have hturn : t = reduce t (1 / 2) + k / 2 := by linear_combination hk
  have htan : Real.tan (radians t) = Real.tan (radians (reduce t (1 / 2))) := by
    conv_lhs => rw [hturn, tan_radians_add_half]
  have hreduces : ReducesTo t (reflect (reduce t (1 / 2))) := by
    have h := (reducesTo_reflect h0 h1).add k
    rwa [← hturn] at h
  have hpole : reflect (reduce t (1 / 2)) = 1 / 4 ↔ reduce t (1 / 2) = 1 / 4 := by
    rw [reflect]
    split_ifs with h
    · exact ⟨fun hw => by linarith, fun hu => by linarith⟩
    · exact .rfl
  refine ⟨_, hreduces, fun hw => ?_, fun hw => ⟨_, ?_, htan.trans (tan_reflect _)⟩⟩
  · rw [tangent?, if_pos (hpole.mp hw)]
  · rw [tangent?, if_neg (mt hpole.mpr hw)]

/-! ## The tables -/

/-- A value with its sign denotes the signed value. -/
theorem denotes_toExpr (h : Denotes (.ok e) y) (n : Bool) :
    Denotes (Value.toExpr ⟨n, e⟩) (signed n y) := by
  cases n with
  | false => exact h
  | true => exact h.neg

/-- What is looked up in a table of values of `f` denotes the value there, with the sign. -/
theorem denotes_lookup? {table : List (Rat × Expr)} {f : Rat → ℝ} {v : Value}
    (h : ∀ p ∈ table, Denotes (.ok p.2) (f p.1)) (hv : lookup? table n w = some v) :
    Denotes v.toExpr (signed n (f w)) := by
  obtain ⟨e, he, rfl⟩ := Option.map_eq_some_iff.mp hv
  obtain ⟨l, r, rfl, -⟩ := List.lookup_eq_some_iff.mp he
  exact denotes_toExpr (h (w, e) (by simp)) n

/-- What is looked up is found if the angle is in the table. -/
theorem isSome_lookup? {table : List (Rat × Expr)} :
    (lookup? table n w).isSome = true ↔ w ∈ table.map Prod.fst := by
  rw [lookup?, Option.isSome_map, List.lookup_isSome_iff, List.mem_map]
  simp only [beq_iff_eq]
  exact exists_congr fun p => and_congr_right fun _ => eq_comm

/-- The angles of the sines in the table, and what roots they are multiples of. -/
def sineRoots : List (Rat × Rat × Radicand) :=
  [(0, 0, .one), (1 / 12, 1 / 2, .one), (1 / 8, 1 / 2, .two),
      (1 / 6, 1 / 2, .three), (1 / 4, 1, .one)]

/-- The sines in the table are multiples of roots. -/
theorem sines_eq_map : sines = sineRoots.map fun r => (r.1, r.2.2.multiple r.2.1) := by
  with_unfolding_all rfl

/-- The sines of these angles are these multiples. -/
theorem sin_radians_sineRoots : ∀ r ∈ sineRoots, Real.sin (radians r.1) = r.2.1 * √r.2.2.toNat := by
  have h12 : radians (1 / 12) = Real.pi / 6 := radians_eq_pi_div (by norm_num)
  have h8 : radians (1 / 8) = Real.pi / 4 := radians_eq_pi_div (by norm_num)
  have h6 : radians (1 / 6) = Real.pi / 3 := radians_eq_pi_div (by norm_num)
  have h4 : radians (1 / 4) = Real.pi / 2 := radians_eq_pi_div (by norm_num)
  simp only [sineRoots, List.forall_mem_cons, Radicand.toNat]
  refine ⟨?_, ?_, ?_, ?_, ?_, List.forall_mem_nil _⟩
  · simp [radians]
  · rw [h12, Real.sin_pi_div_six]
    simp
  · rw [h8, Real.sin_pi_div_four]
    push_cast
    ring
  · rw [h6, Real.sin_pi_div_three]
    push_cast
    ring
  · rw [h4, Real.sin_pi_div_two]
    simp

/-- The tabulated sines are right. -/
theorem denotes_sines : ∀ p ∈ sines, Denotes (.ok p.2) (Real.sin (radians p.1)) := by
  rw [sines_eq_map, List.forall_mem_map]
  intro r hr
  rw [sin_radians_sineRoots r hr]
  exact .multiple _ _

/-- The tangent of half an angle. -/
theorem tan_eq_of_double (x : ℝ) : Real.tan x = Real.sin (2 * x) / (1 + Real.cos (2 * x)) := by
  rw [Real.sin_two_mul, Real.cos_two_mul, Real.tan_eq_sin_div_cos]
  by_cases hc : Real.cos x = 0
  · simp [hc]
  · field_simp
    ring

/-- The tangents at an odd number of twelfths of a right angle are sums with a root. -/
theorem tan_radians_twenty_fourth :
    Real.tan (radians (1 / 24)) = 2 - √3 ∧ Real.tan (radians (5 / 24)) = 2 + √3 := by
  have h3 : √3 * √3 = (3 : ℝ) := Real.mul_self_sqrt (by norm_num)
  have h0 : (0 : ℝ) ≤ √3 := Real.sqrt_nonneg 3
  have hlt : √3 < (2 : ℝ) := by
    rw [Real.sqrt_lt' (by norm_num)]
    norm_num
  constructor
  · have hdouble : 2 * radians (1 / 24) = Real.pi / 6 := by
      rw [radians_eq_pi_div (by norm_num : ((1 / 24 : ℚ) : ℝ) * (2 * 12) = 1)]
      ring
    rw [tan_eq_of_double, hdouble, Real.sin_pi_div_six, Real.cos_pi_div_six,
      div_eq_iff (by linarith)]
    linear_combination h3 / 2
  · have hdouble : 2 * radians (5 / 24) = Real.pi - Real.pi / 6 := by
      simp only [radians]
      push_cast
      ring
    rw [tan_eq_of_double, hdouble, Real.sin_pi_sub, Real.cos_pi_sub, Real.sin_pi_div_six,
      Real.cos_pi_div_six, div_eq_iff (by linarith)]
    linear_combination h3 / 2

/-- The tabulated tangents are right. -/
theorem denotes_tangents : ∀ p ∈ tangents, Denotes (.ok p.2) (Real.tan (radians p.1)) := by
  obtain ⟨h24, h524⟩ := tan_radians_twenty_fourth
  have h12 : radians (1 / 12) = Real.pi / 6 := radians_eq_pi_div (by norm_num)
  have h8 : radians (1 / 8) = Real.pi / 4 := radians_eq_pi_div (by norm_num)
  have h6 : radians (1 / 6) = Real.pi / 3 := radians_eq_pi_div (by norm_num)
  -- The sums are those of their terms.
  have minus : inOrder (Canonical.sum [num 2, Radicand.three.multiple (-1)]) =
      .ok (.sum [num 2, .product [num (-1), root 3]]) := by with_unfolding_all rfl
  have plus : inOrder (Canonical.sum [num 2, Radicand.three.multiple 1]) =
      .ok (.sum [num 2, root 3]) := by
    with_unfolding_all rfl
  have whole : Radicand.three.multiple 1 = root 3 := by with_unfolding_all rfl
  have third : Radicand.three.multiple (1 / 3) = .product [num (1 / 3), root 3] := by
    with_unfolding_all rfl
  have hthree (p : Rat) := Denotes.multiple .three p
  simp only [Radicand.toNat, Nat.cast_ofNat] at hthree
  simp only [tangents, List.forall_mem_cons]
  refine ⟨?_, ?_, ?_, ?_, ?_, ?_, List.forall_mem_nil _⟩
  · simpa [radians] using Denotes.num 0
  · rw [h24, ← minus]
    simpa [sub_eq_add_neg] using (Denotes.num 2).add (hthree (-1))
  · have hinv : 1 / √3 = ((1 / 3 : ℚ) : ℝ) * √3 := by
      have h3 : √3 * √3 = (3 : ℝ) := Real.mul_self_sqrt (by norm_num)
      rw [div_eq_iff (by positivity), mul_assoc, h3]
      norm_num
    rw [h12, Real.tan_pi_div_six, ← third, hinv]
    exact hthree (1 / 3)
  · rw [h8, Real.tan_pi_div_four]
    simpa using Denotes.num 1
  · rw [h6, Real.tan_pi_div_three, ← whole]
    simpa using hthree 1
  · rw [h524, ← plus]
    simpa using (Denotes.num 2).add (hthree 1)

/-! ## Special angles -/

/-- What is found as the sine denotes it. -/
theorem denotes_sine {v : Value} (h : sine? t = some v) :
    Denotes v.toExpr (Real.sin (radians t)) := by
  obtain ⟨n, w, heq, -, hsin⟩ := sine?_eq t
  rw [heq] at h
  rw [hsin]
  exact denotes_lookup? (f := fun w => Real.sin (radians w)) denotes_sines h

/-- What is found as the cosine denotes it. -/
theorem denotes_cosine {v : Value} (h : cosine? t = some v) :
    Denotes v.toExpr (Real.cos (radians t)) := by
  rw [← sin_radians_add_quarter]
  exact denotes_sine h

/-- What is found as the tangent denotes it. -/
theorem denotes_tangent {v : Value} (h : tangent? t = .ok (some v)) :
    Denotes v.toExpr (Real.tan (radians t)) := by
  obtain ⟨w, -, hpole, hlook⟩ := tangent?_eq t
  by_cases hw : w = 1 / 4
  · rw [hpole hw] at h
    cases h
  · obtain ⟨n, heq, htan⟩ := hlook hw
    rw [heq] at h
    rw [htan]
    exact denotes_lookup? (f := fun w => Real.tan (radians w)) denotes_tangents (Except.ok.inj h)

/-- A part of a full turn in the first quadrant is one of a quarter of the parts. -/
theorem exists_part {N : ℕ} (hN : 0 < N) (h0 : 0 ≤ w) (h1 : w ≤ 1 / 4) (h : IsWhole (N * w)) :
    ∃ k : ℕ, 4 * k ≤ N ∧ w = k / N := by
  obtain ⟨j, hj⟩ := h
  have hpos : (0 : ℚ) < N := Nat.cast_pos.mpr hN
  have hj0 : 0 ≤ j := by
    have hcast : (0 : ℚ) ≤ j := hj ▸ mul_nonneg hpos.le h0
    exact_mod_cast hcast
  obtain ⟨k, rfl⟩ := Int.eq_ofNat_of_zero_le hj0
  refine ⟨k, ?_, (eq_div_iff hpos.ne').mpr ?_⟩
  · have hcast : 4 * (k : ℚ) ≤ N := by
      have hk : (N : ℚ) * w ≤ N * (1 / 4) := mul_le_mul_of_nonneg_left h1 hpos.le
      rw [hj] at hk
      push_cast at hk
      linarith
    exact_mod_cast hcast
  · rw [mul_comm, hj]
    rfl

/-- An angle of the first quadrant has its sine in the table if it is a whole number of twelfths or
of eighths of a full turn. -/
theorem mem_sines_iff (h0 : 0 ≤ w) (h1 : w ≤ 1 / 4) :
    w ∈ sines.map Prod.fst ↔ IsWhole (12 * w) ∨ IsWhole (8 * w) := by
  have hkeys : sines.map Prod.fst = [0, 1 / 12, 1 / 8, 1 / 6, 1 / 4] := rfl
  rw [hkeys]
  constructor
  · simp only [List.mem_cons, List.not_mem_nil, or_false]
    rintro (rfl | rfl | rfl | rfl | rfl)
    · exact .inl ⟨0, by norm_num⟩
    · exact .inl ⟨1, by norm_num⟩
    · exact .inr ⟨1, by norm_num⟩
    · exact .inl ⟨2, by norm_num⟩
    · exact .inl ⟨3, by norm_num⟩
  · rintro (h | h)
    · obtain ⟨k, hk, rfl⟩ := exists_part (N := 12) (by decide) h0 h1 (by exact_mod_cast h)
      have hk : k ≤ 3 := by omega
      interval_cases k <;> norm_num
    · obtain ⟨k, hk, rfl⟩ := exists_part (N := 8) (by decide) h0 h1 (by exact_mod_cast h)
      have hk : k ≤ 2 := by omega
      interval_cases k <;> norm_num

/-- An angle of the first quadrant other than the right angle has its tangent in the table if it is
a whole number of twenty-fourths of a full turn. -/
theorem mem_tangents_iff (h0 : 0 ≤ w) (h1 : w ≤ 1 / 4) (hw : w ≠ 1 / 4) :
    w ∈ tangents.map Prod.fst ↔ IsWhole (24 * w) := by
  have hkeys : tangents.map Prod.fst = [0, 1 / 24, 1 / 12, 1 / 8, 1 / 6, 5 / 24] := rfl
  rw [hkeys]
  constructor
  · simp only [List.mem_cons, List.not_mem_nil, or_false]
    rintro (rfl | rfl | rfl | rfl | rfl | rfl)
    · exact ⟨0, by norm_num⟩
    · exact ⟨1, by norm_num⟩
    · exact ⟨2, by norm_num⟩
    · exact ⟨3, by norm_num⟩
    · exact ⟨4, by norm_num⟩
    · exact ⟨5, by norm_num⟩
  · intro h
    obtain ⟨k, hk, rfl⟩ := exists_part (N := 24) (by decide) h0 h1 (by exact_mod_cast h)
    have hk6 : k ≠ 6 := by
      rintro rfl
      exact hw (by norm_num)
    have hk : k ≤ 5 := by omega
    interval_cases k <;> norm_num

/-- The sine is found exactly at the whole numbers of twelfths and of eighths of a full turn. -/
theorem isSome_sine? (t : Rat) : (sine? t).isSome = true ↔ IsSpecial t := by
  obtain ⟨n, w, heq, hw, -⟩ := sine?_eq t
  rw [IsSpecial, heq, isSome_lookup?, mem_sines_iff hw.nonneg hw.le,
    hw.isWhole_iff (N := 12) ⟨6, by norm_num⟩, hw.isWhole_iff (N := 8) ⟨4, by norm_num⟩]

/-- The cosine is found where the sine is. -/
theorem isSome_cosine? (t : Rat) : (cosine? t).isSome = true ↔ IsSpecial t := by
  have h := isSpecial_add_quarters t 1
  rw [Int.cast_one] at h
  rw [cosine?, isSome_sine?, h]

/-- The tangent has its poles exactly at the odd numbers of quarter turns. -/
theorem tangent?_eq_error_iff (t : Rat) : tangent? t = .error .tangentPole ↔ IsPole t := by
  obtain ⟨w, hw, hpole, hlook⟩ := tangent?_eq t
  rw [← hw.eq_quarter_iff]
  refine ⟨fun h => ?_, hpole⟩
  by_contra hne
  obtain ⟨n, heq, -⟩ := hlook hne
  rw [heq] at h
  cases h

/-- Elsewhere it is found exactly at the whole numbers of twenty-fourths of a full turn. -/
theorem isSome_tangent? (h : ¬IsPole t) :
    ∃ v, tangent? t = .ok v ∧ (v.isSome = true ↔ IsWhole (24 * t)) := by
  obtain ⟨w, hw, -, hlook⟩ := tangent?_eq t
  have hne : w ≠ 1 / 4 := mt hw.eq_quarter_iff.mp h
  obtain ⟨n, heq, -⟩ := hlook hne
  refine ⟨_, heq, ?_⟩
  rw [isSome_lookup?, mem_tangents_iff hw.nonneg hw.le hne,
    hw.isWhole_iff (N := 24) ⟨12, by norm_num⟩]

/-- The cosines of the angles in the table are sines in the table, of a compatible root. -/
theorem exists_complement :
    ∀ r ∈ sineRoots, ∃ r' ∈ sineRoots, r'.1 = 1 / 4 - r.1 ∧ r.2.2.Compatible r'.2.2 := by
  decide +kernel

/-- A multiple of a root with a sign is one. -/
theorem exists_signed_eq (n : Bool) (p : Rat) (y : ℝ) : ∃ q : Rat, signed n (p * y) = q * y := by
  cases n with
  | false => exact ⟨p, rfl⟩
  | true => exact ⟨-p, by rw [Rat.cast_neg, neg_mul]; rfl⟩

/-- The cosine is zero at the poles of the tangent. -/
theorem IsPole.cos_eq_zero (h : IsPole t) : Real.cos (radians t) = 0 := by
  obtain ⟨k, hk⟩ := h
  have hcast : (4 : ℝ) * t = 2 * k + 1 := by exact_mod_cast congrArg (Rat.cast : ℚ → ℝ) hk
  refine Real.cos_eq_zero_iff.mpr ⟨k, ?_⟩
  rw [radians]
  push_cast
  linear_combination Real.pi / 2 * hcast

/-- At a special angle sine and cosine are multiples of compatible roots. -/
theorem exists_roots (h : IsSpecial t) : ∃ (p q : Rat) (n m : Radicand),
    Real.sin (radians t) = p * √n.toNat ∧ Real.cos (radians t) = q * √m.toNat ∧ n.Compatible m := by
  obtain ⟨b, w, heq, hw, hsin⟩ := sine?_eq t
  obtain ⟨c, hcos⟩ := hw.exists_cos
  have hmem : w ∈ sines.map Prod.fst := by
    rw [← isSome_lookup? (n := b), ← heq, isSome_sine?]
    exact h
  have hkeys : sines.map Prod.fst = sineRoots.map Prod.fst := rfl
  rw [hkeys] at hmem
  obtain ⟨r, hr, rfl⟩ := List.mem_map.mp hmem
  obtain ⟨r', hr', hsub, hroots⟩ := exists_complement r hr
  have hcomplement : Real.cos (radians r.1) = Real.sin (radians r'.1) := by
    have hquarter : radians r'.1 = Real.pi / 2 - radians r.1 := by
      rw [hsub]
      simp only [radians]
      push_cast
      ring
    rw [hquarter, Real.sin_pi_div_two_sub]
  rw [sin_radians_sineRoots r hr] at hsin
  rw [hcomplement, sin_radians_sineRoots r' hr'] at hcos
  obtain ⟨p, hp⟩ := exists_signed_eq b r.2.1 √r.2.2.toNat
  obtain ⟨q, hq⟩ := exists_signed_eq c r'.2.1 √r'.2.2.toNat
  exact ⟨p, q, r.2.2, r'.2.2, hsin.trans hp, hcos.trans hq, hroots⟩

end StackAlgebra
