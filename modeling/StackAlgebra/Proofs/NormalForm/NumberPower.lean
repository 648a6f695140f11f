import StackAlgebra.Proofs.Number.Root
import StackAlgebra.Proofs.NormalForm.Settled
import StackAlgebra.Proofs.Canonical.Descent
import Mathlib.Algebra.Order.Field.Power
import Mathlib.Algebra.Order.GroupWithZero.Basic
import Mathlib.Data.Rat.Lemmas

/-!
# Powers of numbers

A power of a number that is not rational is a rational times a root of that number, the exponent of
the root between zero and one (`numberPower_eq_ok`). Brought to this form once, it stays
(`rationalPower_fixed`): whether the root is rational depends only on the magnitude of the number
and on the denominator of the exponent, and neither changes.
-/

namespace StackAlgebra.Canonical

open StackAlgebra.Expr (num IsMonic)

variable {b f : Rat} {e r : Expr}

/-- The part of an exponent beside its whole part is between zero and one, and has its
denominator. -/
theorem part_spec (hf : f.den ≠ 1) :
    0 < f - f.floor ∧ f - f.floor < 1 ∧ (f - f.floor).den = f.den := by
  have hden : (f - f.floor).den = f.den := Rat.sub_intCast_den f f.floor
  have hle := Rat.floor_le f
  have hlt := Rat.lt_floor_add_one f
  push_cast at hlt
  have hne : f - f.floor ≠ 0 := by
    intro h0
    rw [h0] at hden
    exact hf hden.symm
  exact ⟨lt_of_le_of_ne (sub_nonneg.mpr hle) hne.symm, by linarith, hden⟩

/-- A root that is not rational is settled. -/
theorem settled_root (hf : f.den ≠ 1) (h0 : 0 < f) (h1 : f < 1) (hreal : 0 < b ∨ f.den % 2 = 1)
    (hroot : ¬ ∃ r : Rat, r ^ f.den = |b|) : (Expr.power (num b) (num f)).IsSettled := by
  -- The number is neither zero nor one, since these are their own roots.
  have hb : ∀ q : Rat, q ^ f.den = q → b ≠ q := by
    rintro q hq rfl
    refine hroot ⟨|b|, ?_⟩
    rw [← abs_pow, hq]
  rw [Expr.settled_power_iff]
  refine ⟨?_, Expr.settled_num b, Expr.settled_num f⟩
  constructor
  · simpa [Expr.isZero] using h0.ne'
  · simpa [Expr.isOne] using h1.ne
  · simpa [Expr.isOne] using hb 1 (one_pow _)
  · rfl
  · intro hi
    exact absurd (by simpa [Expr.isInteger] using hi) hf
  · intro _
    rfl
  · intro hz
    exact absurd (by simpa [Expr.isZero] using hz) (hb 0 (zero_pow f.den_ne_zero))
  · rintro _ _ ⟨⟩ ⟨⟩
    exact ⟨h0, h1⟩
  · rintro _ _ ⟨⟩ ⟨⟩
    exact hroot
  · rintro _ _ ⟨⟩ ⟨⟩
    exact hreal

/-- An irrational power is a power of the number times a root of it. -/
theorem rationalPower_of_no_root (hden : f.den ≠ 1) (hreal : ¬ (b < 0 ∧ f.den % 2 = 0))
    (hroot : Root.rational? f.den b.abs = none) : rationalPower b f =
      .ok (if f.floor = 0 then .power (num b) (num (f - f.floor))
        else .product (Expr.sort [num (b ^ f.floor), .power (num b) (num (f - f.floor))])) := by
  rw [rationalPower, if_neg hden, if_neg hreal, hroot]

/-- An irrational power is a term: the whole part of the exponent makes the coefficient. -/
theorem rationalPower_eq_term (hden : f.den ≠ 1) (hreal : ¬ (b < 0 ∧ f.den % 2 = 0))
    (hroot : Root.rational? f.den b.abs = none) : rationalPower b f =
      .ok (term (b ^ f.floor) (.power (num b) (num (f - f.floor)))) := by
  rw [rationalPower_of_no_root hden hreal hroot]
  rw [rat_abs_eq, Root.rational?_eq_none_iff f.den_ne_zero (abs_nonneg b)] at hroot
  -- The rational in front is one only if the whole part is zero, as `b` is not one or minus one.
  have hone : b ^ f.floor = 1 ↔ f.floor = 0 := by
    constructor
    · intro hp
      have hp' : |b| ^ f.floor = 1 := by rw [← abs_zpow, hp, abs_one]
      refine (zpow_eq_one_iff_right₀ (abs_nonneg b) ?_).mp hp'
      intro hb1
      exact hroot ⟨1, by rw [one_pow, hb1]⟩
    · intro hw
      rw [hw, zpow_zero]
  rw [term]
  simp only [hone]
  rfl

/-- A rational power is a rational, or a rational other than zero times a root that is none. -/
theorem rationalPower_eq_ok (hb : b ≠ 0) (h : rationalPower b f = .ok r) :
    (∃ q, r = num q) ∨ f.den ≠ 1 ∧ ∃ c, c ≠ 0 ∧ r = term c (.power (num b) (num (f - f.floor))) ∧
      (Expr.power (num b) (num (f - f.floor))).IsSettled := by
  by_cases hden : f.den = 1
  · rw [rationalPower, if_pos hden] at h
    exact .inl ⟨_, (Except.ok.inj h).symm⟩
  by_cases hreal : b < 0 ∧ f.den % 2 = 0
  · rw [rationalPower, if_neg hden, if_pos hreal] at h
    cases h
  cases hx : Root.rational? f.den b.abs with
  | some root =>
    rw [rationalPower, if_neg hden, if_neg hreal, hx] at h
    exact .inl ⟨_, (Except.ok.inj h).symm⟩
  | none =>
    rw [rationalPower_eq_term hden hreal hx] at h
    -- The whole part of the exponent comes in front, and a root without a rational value is left.
    rw [rat_abs_eq, Root.rational?_eq_none_iff f.den_ne_zero (abs_nonneg b)] at hx
    obtain ⟨h0, h1, hd⟩ := part_spec hden
    right
    refine ⟨hden, b ^ f.floor, zpow_ne_zero _ hb, (Except.ok.inj h).symm, ?_⟩
    refine settled_root (hd.trans_ne hden) h0 h1 ?_ (hd ▸ hx)
    rw [hd]
    rcases lt_or_gt_of_ne hb with hneg | hpos
    · right
      have := not_and.mp hreal hneg
      omega
    · exact .inl hpos

/-- A power of zero. -/
theorem numberPower_zero (q : Rat) :
    numberPower 0 (num q) = if q < 0 then .error .divisionByZero else .ok (num 0) := rfl

/-- A rational power of a number other than zero and one. -/
theorem numberPower_num (h0 : b ≠ 0) (h1 : b ≠ 1) (q : Rat) :
    numberPower b (num q) = rationalPower b q := by
  simp only [numberPower, if_neg h0, if_neg h1]

/-- A power of a number whose exponent is no number stays as it is. -/
theorem numberPower_of_not_isNum (h1 : b ≠ 1) (he : e.isNum = false) :
    numberPower b e = .ok (.power (num b) e) := by
  unfold numberPower
  rw [if_neg h1]
  cases e with
  | num q => cases he
  | _ => rfl

/-- An exponent that is no number is no integer. -/
theorem isInteger_of_not_isNum (he : e.isNum = false) : e.isInteger = false := by
  cases e with
  | num q => cases he
  | _ => rfl

/-- A power of a number whose exponent is settled and no number is settled. -/
theorem settled_power_of_not_isNum (h1 : b ≠ 1) (he : e.IsSettled) (hn : e.isNum = false) :
    (Expr.power (num b) e).IsSettled := by
  have hint := isInteger_of_not_isNum hn
  have hne : ∀ f, e ≠ num f := by
    rintro f rfl
    cases hn
  rw [Expr.settled_power_iff]
  refine ⟨?_, Expr.settled_num b, he⟩
  constructor
  · cases e with
    | num q => cases hn
    | _ => rfl
  · cases e with
    | num q => cases hn
    | _ => rfl
  · simpa [Expr.isOne] using h1
  · rfl
  · simp [hint]
  · simp [hint]
  · exact fun _ => hn
  · exact fun _ f _ hf => absurd hf (hne f)
  · exact fun _ f _ hf => absurd hf (hne f)
  · exact fun _ f _ hf => absurd hf (hne f)

/-- The ways in which a power of the number `b` comes to its result `r`: it is a number, it stays as
it is, or it is a rational times a root. -/
inductive PoweredNumber (b : Rat) (e r : Expr) : Prop where
  | number (q : Rat) (hr : r = num q)
  | stays (h1 : b ≠ 1) (hn : e.isNum = false) (hr : r = .power (num b) e)
  | root (f c : Rat) (he : e = num f) (hden : f.den ≠ 1) (hc : c ≠ 0)
      (hr : r = term c (.power (num b) (num (f - f.floor))))
      (hs : (Expr.power (num b) (num (f - f.floor))).IsSettled)

/-- A power of a number comes to its result in one of the ways named. -/
theorem numberPower_eq_ok (h : numberPower b e = .ok r) : PoweredNumber b e r := by
  by_cases h1 : b = 1
  · unfold numberPower at h
    rw [if_pos h1] at h
    exact .number 1 (Except.ok.inj h).symm
  cases hn : e.isNum with
  | false =>
    rw [numberPower_of_not_isNum h1 hn] at h
    exact .stays h1 hn (Except.ok.inj h).symm
  | true =>
    obtain ⟨f, rfl⟩ := Expr.exists_eq_num hn
    by_cases h0 : b = 0
    · rw [h0, numberPower_zero] at h
      split_ifs at h
      exact .number 0 (Except.ok.inj h).symm
    · rw [numberPower_num h0 h1] at h
      rcases rationalPower_eq_ok h0 h with ⟨q, hq⟩ | ⟨hden, c, hc, hr, hs⟩
      · exact .number q hq
      · exact .root f c rfl hden hc hr hs

/-- A power of a number is settled if the exponent is. -/
theorem settled_numberPower (he : e.IsSettled) (h : numberPower b e = .ok r) : r.IsSettled := by
  cases numberPower_eq_ok h with
  | number q hr => exact hr ▸ Expr.settled_num q
  | stays h1 hn hr => exact hr ▸ settled_power_of_not_isNum h1 he hn
  | root f c _ _ hc hr hs =>
    exact hr ▸ (Expr.isMonic_of_not_isProduct hs rfl rfl rfl).settled_term hc

/-! ## Powers that stay -/

/-- What is known of a number and the exponent of a root of it that is settled. -/
theorem root_spec (h : (Expr.power (num b) (num f)).IsSettled) : f.den ≠ 1 ∧
    ¬ (b < 0 ∧ f.den % 2 = 0) ∧ Root.rational? f.den b.abs = none ∧ f.floor = 0 := by
  obtain ⟨hp, -, -⟩ := Expr.settled_power_iff.mp h
  obtain ⟨h0, h1⟩ := hp.part b f rfl rfl
  -- Neither an even root of a negative number, nor one that is rational, nor a whole part is left.
  refine ⟨?_, ?_, ?_, ?_⟩
  · intro hd
    have := hp.not_isNum_of_isInteger (by simpa [Expr.isInteger] using hd)
    cases this
  · rintro ⟨hneg, heven⟩
    rcases hp.real b f rfl rfl with hpos | hodd
    · exact absurd hneg hpos.not_gt
    · omega
  · rw [rat_abs_eq]
    exact (Root.rational?_eq_none_iff f.den_ne_zero (abs_nonneg b)).mpr (hp.no_root b f rfl rfl)
  · have hge : 0 ≤ f.floor := Rat.le_floor_iff.mpr (by simpa using h0.le)
    have hlt : f.floor < 1 := Rat.floor_lt_iff.mpr (by simpa using h1)
    omega

/-- A root that is not rational stays as it is, and whole powers beside it go to the coefficient. -/
theorem rationalPower_add_int (h : (Expr.power (num b) (num f)).IsSettled) (k : ℤ) :
    rationalPower b (f + k) = .ok (term (b ^ k) (.power (num b) (num f))) := by
  obtain ⟨hden, hreal, hroot, hfloor⟩ := root_spec h
  have hden' : (f + k).den = f.den := Rat.add_intCast_den f k
  have hfloor' : (f + k).floor = k := by
    rw [Rat.floor_add_intCast, hfloor, zero_add]
  rw [← hden'] at hden hreal hroot
  rw [rationalPower_eq_term hden hreal hroot, hfloor', add_sub_cancel_right]

/-- A root that is not rational stays as it is. -/
theorem rationalPower_fixed (h : (Expr.power (num b) (num f)).IsSettled) :
    rationalPower b f = .ok (.power (num b) (num f)) := by
  have h0 := rationalPower_add_int h 0
  rwa [Int.cast_zero, add_zero, zpow_zero, term, if_pos rfl] at h0

/-- A settled power of a number stays as it is. -/
theorem numberPower_fixed (h : (Expr.power (num b) e).IsSettled) :
    numberPower b e = .ok (.power (num b) e) := by
  obtain ⟨hp, -, -⟩ := Expr.settled_power_iff.mp h
  have h1 : b ≠ 1 := by simpa [Expr.isOne] using hp.base_ne_one
  cases hn : e.isNum with
  | false => exact numberPower_of_not_isNum h1 hn
  | true =>
    have h0 : b ≠ 0 := by
      rintro rfl
      rw [hp.exponent_of_base_zero (by simp [Expr.isZero])] at hn
      cases hn
    obtain ⟨f, rfl⟩ := Expr.exists_eq_num hn
    rw [numberPower_num h0 h1, rationalPower_fixed h]

/-! ## Rational exponents -/

/-- The roots of negative numbers that are real are odd. -/
theorem odd_of_isReal {q : ℕ} (hreal : ¬ (b < 0 ∧ q % 2 = 0)) (hneg : b < 0) : Odd q :=
  Nat.not_even_iff_odd.mp fun heven => hreal ⟨hneg, Nat.even_iff.mp heven⟩

/-- The base of a root that is settled is neither zero nor one. -/
theorem base_ne_of_root (h : (Expr.power (num b) (num f)).IsSettled) : b ≠ 0 ∧ b ≠ 1 := by
  obtain ⟨hp, -, -⟩ := Expr.settled_power_iff.mp h
  constructor
  · rintro rfl
    have hn := hp.exponent_of_base_zero (by simp [Expr.isZero])
    cases hn
  · simpa [Expr.isOne] using hp.base_ne_one

/-- An integer power of a number. -/
theorem numberPower_int {q : Rat} {k : ℤ} (h : q = 0 → 0 < k) :
    numberPower q (num k) = .ok (num (q ^ k)) := by
  by_cases h1 : q = 1
  · rw [h1, one_zpow]
    rfl
  by_cases h0 : q = 0
  · have hk := h h0
    rw [h0, numberPower_zero, if_neg (by exact_mod_cast hk.le.not_gt), zero_zpow _ hk.ne']
  · rw [numberPower_num h0 h1, rationalPower, if_pos (Rat.den_intCast k), Rat.num_intCast]

/-- A number other than zero and one to any rational exponent, also to zero and to one. -/
theorem power_num_num (h0 : b ≠ 0) (h1 : b ≠ 1) (q : Rat) :
    power (num b) (num q) = rationalPower b q := by
  have hb : (num b).isZero = false := by simpa [Expr.isZero] using h0
  by_cases hq0 : q = 0
  · subst hq0
    rw [power_eq, if_pos (by decide), hb]
    simp [rationalPower]
  by_cases hq1 : q = 1
  · subst hq1
    rw [power_eq, if_neg (by decide), if_pos (by decide)]
    simp [rationalPower]
  · rw [power_eq, if_neg (by simpa [Expr.isZero] using hq0),
      if_neg (by simpa [Expr.isOne] using hq1)]
    exact numberPower_num h0 h1 q

end StackAlgebra.Canonical
