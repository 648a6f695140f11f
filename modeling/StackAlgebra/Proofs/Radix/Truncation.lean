import Mathlib.Algebra.Order.Floor.Semifield
import Mathlib.Data.Int.Log
import Mathlib.Data.Rat.Floor
import Mathlib.Data.Sign.Defs
import StackAlgebra.Proofs.Number.Root
import StackAlgebra.Proofs.Radix.Numeral

/-!
# Approximate digits

Approximate digits denote a number with its sign that is no larger in magnitude, and closer to it
than the last place is worth (`writeApprox_isTruncation`). Long division gives this for the digits
behind a point (`exists_isCutOff`). With an exponent the same is said of the number divided by the
power of the radix below it, which is its logarithm (`magnitude_eq_log`): what is left is at least
one and less than the radix, so that one digit stands before the point.
-/

namespace StackAlgebra.Radix

variable {R : Radix} {q a : ℚ} {p : ℕ}

/-! ## The power of the radix below a number -/

/-- How many digits a number has in front of others. -/
theorem length_digitsOnto (n : ℕ) (low : List ℕ) :
    (R.digitsOnto n low).length = low.length + (Nat.log R.val n + 1) := by
  induction n, low using digitsOnto.induct R with
  | case1 n low h => rw [digitsOnto, if_pos h, Nat.log_of_lt h, List.length_cons]
  | case2 n low h ih =>
    rw [digitsOnto, if_neg h, ih, List.length_cons, Nat.log_of_one_lt_of_le R.two_le (not_lt.mp h)]
    omega

/-- A number has one digit more than its logarithm. -/
theorem length_digits (n : ℕ) : (R.digits n).length = Nat.log R.val n + 1 := by
  rw [digits, length_digitsOnto, List.length_nil, Nat.zero_add]

/-- Rounded up, a logarithm is one more than that of the number before, rounded down. -/
theorem clog_eq_log_pred {n : ℕ} (h : 1 < n) : Nat.clog R.val n = Nat.log R.val (n - 1) + 1 := by
  refine eq_of_forall_ge_iff fun k => ?_
  rw [Nat.clog_le_iff_le_pow R.two_le, Nat.succ_le_iff, Nat.log_lt_iff_lt_pow R.two_le (by omega)]
  omega

/-- The magnitude of a positive number is its logarithm. -/
theorem magnitude_eq_log (h : 0 < q) : R.magnitude q = Int.log R.val q := by
  unfold magnitude
  split_ifs with hq
  · have hfloor : q.floor.toNat = ⌊q⌋₊ := rfl
    rw [length_digits, Int.log_of_one_le_right _ hq, hfloor, Nat.cast_add_one, add_sub_cancel_right]
  · have hq := not_le.mp hq
    have hceil : (1 / q).ceil.toNat = ⌈q⁻¹⌉₊ := by
      rw [one_div, Rat.ceil_eq_neg_floor_neg]
      rfl
    have hone : 1 < ⌈q⁻¹⌉₊ := Nat.lt_ceil.mpr (by simpa using (one_lt_inv₀ h).mpr hq)
    rw [length_digits, Int.log_of_right_le_one _ hq.le, hceil, clog_eq_log_pred hone]

/-! ## Digits cut off -/

/-- The digits of a fraction are not more than it, and less than one in the last place is
missing. -/
theorem fractionDigits_bounds (p : ℕ) {r d : ℕ} (hr : r < d) :
    (R.ofDigits (R.fractionDigits p r d) : ℚ) / (R.val : ℚ) ^ p ≤ r / d ∧
      (r : ℚ) / d < (R.ofDigits (R.fractionDigits p r d) : ℚ) / (R.val : ℚ) ^ p +
        1 / (R.val : ℚ) ^ p := by
  obtain ⟨last, hlast, hlong⟩ := ofDigits_fractionDigits (R := R) p hr
  have hd : (0 : ℚ) < d := Nat.cast_pos.mpr (Nat.zero_lt_of_lt hr)
  have hR : (0 : ℚ) < (R.val : ℚ) ^ p := pow_pos (Nat.cast_pos.mpr R.val_pos) p
  constructor
  · rw [div_le_div_iff₀ hR hd]
    exact_mod_cast Nat.le.intro hlong
  · rw [← add_div, div_lt_div_iff₀ hd hR, add_mul, one_mul]
    exact_mod_cast (hlong ▸ Nat.add_lt_add_left hlast _ :
      r * R.val ^ p < R.ofDigits (R.fractionDigits p r d) * d + d)

/-- The number is that of the digits of another one up to a place behind the point. -/
structure IsCutOff (p : ℕ) (a : ℚ) (n : Positional R) : Prop where
  text_eq : n.text = R.writeTruncated p a
  places_eq : n.places = p
  behind_iff : n.behind = none ↔ p = 0
  whole_eq : n.whole.map (·.val) = R.digits ⌊a⌋₊
  value_le : n.value ≤ a
  lt_value : a < n.value + 1 / (R.val : ℚ) ^ p

/-- A number that is not negative is written as digits around a point, or without a point if there
are no places. -/
theorem exists_isCutOff (R : Radix) (p : ℕ) (h : 0 ≤ a) : ∃ n : Positional R, IsCutOff p a n := by
  have hmod : a.num.natAbs % a.den < a.den := Nat.mod_lt _ a.den_pos
  have hvalue : a = (a.num.natAbs : ℚ) / a.den := (abs_of_nonneg h).symm.trans (abs_eq_natAbs_div a)
  have hwhole : a.num.natAbs / a.den = ⌊a⌋₊ := by
    rw [← Nat.floor_div_eq_div (K := ℚ), ← hvalue]
  -- The digits of the quotient stand before the point, and long division goes on with the
  -- remainder.
  have hsplit : a = (⌊a⌋₊ : ℚ) + ((a.num.natAbs % a.den : ℕ) : ℚ) / a.den := by
    have hden : (a.den : ℚ) ≠ 0 := Nat.cast_ne_zero.mpr a.den_nz
    rw [← hwhole, eq_comm]
    refine Eq.trans ?_ hvalue.symm
    rw [eq_div_iff hden, add_mul, div_mul_cancel₀ _ hden]
    exact_mod_cast Nat.div_add_mod' _ _
  obtain ⟨ds, hne, hds⟩ := R.exists_digits ⌊a⌋₊
  obtain ⟨es, hes⟩ : ∃ es : List (Fin R.val),
      es.map (·.val) = R.fractionDigits p (a.num.natAbs % a.den) a.den :=
    exists_map_val_eq fun _ => lt_of_mem_fractionDigits hmod
  have hlength : es.length = p := by
    rw [← List.length_map (·.val), hes, length_fractionDigits]
  have hbehind : (if p = 0 then none else some es).getD [] = es := by
    split_ifs with hp
    · exact (List.length_eq_zero_iff.mp (hlength.trans hp)).symm
    · rfl
  let n : Positional R := ⟨ds, if p = 0 then none else some es, .inl hne⟩
  have hplaces : n.places = p := (congrArg List.length hbehind).trans hlength
  obtain ⟨hle, hlt⟩ := fractionDigits_bounds (R := R) p hmod
  have hnumber : n.value =
      ⌊a⌋₊ +
        (R.ofDigits (R.fractionDigits p (a.num.natAbs % a.den) a.den) : ℚ) / (R.val : ℚ) ^ p := by
    rw [Positional.value, hplaces, hbehind, numberOf, numberOf, hds, hes, ofDigits_digits]
  refine ⟨n, ?_, hplaces, ?_, hds, ?_, ?_⟩
  · rw [Positional.text, writeTruncated, writeNat, hwhole, textOf, hds]
    by_cases hp : p = 0
    · simp [n, hp, Positional.textBehind]
    · simp [n, hp, Positional.textBehind, textOf, hes]
  · simp [n]
  · rw [hnumber]
    linarith
  · rw [hnumber]
    linarith

/-! ## Exponents -/

/-- A whole number is written as an exponent behind its mark. -/
theorem exists_exponent (R : Radix) (k : ℤ) :
    ∃ e : Exponent R, e.text = exponentMark :: R.writeInt k ∧ e.value = k := by
  obtain ⟨ds, hne, hds⟩ := R.exists_digits k.natAbs
  have hnumber : numberOf ds = k.natAbs := by rw [numberOf, hds, ofDigits_digits]
  have htext : textOf ds = R.writeNat k.natAbs := by rw [textOf, hds, writeNat]
  rcases lt_or_ge k 0 with hk | hk
  · refine ⟨⟨exponentMark, .inl rfl, 1, ds, hne⟩, ?_, ?_⟩
    · rw [writeInt, if_pos hk, ← htext]
      rfl
    · rw [Exponent.value, if_neg one_ne_zero, hnumber]
      omega
  · refine ⟨⟨exponentMark, .inl rfl, 0, ds, hne⟩, ?_, ?_⟩
    · rw [writeInt, if_neg (not_lt.mpr hk), ← htext]
      rfl
    · rw [Exponent.value, if_pos rfl, hnumber]
      omega

/-! ## Truncation -/

/-- The number `w` is `a` without the digits behind a place: `p` places behind the point, or so many
in front of an exponent if the number is too large or too small. -/
structure IsTruncation (p : ℕ) (a w : ℚ) (n : Unsigned R) : Prop where
  le : w ≤ a
  eq_zero : w = 0 → a = 0
  denominator_eq : n.mantissa.denominator = none
  places_eq : n.mantissa.numerator.places = p
  behind_iff : n.mantissa.numerator.behind = none ↔ p = 0
  exponent_iff : n.exponent.isSome ↔
    a ≠ 0 ∧ ((R.val : ℚ) ^ 6 ≤ a ∨ a < (R.val : ℚ) ^ (-(p : ℤ)))
  plain : n.exponent = none → a - w < (R.val : ℚ) ^ (-(p : ℤ))
  scientific : ∀ e ∈ n.exponent,
    (R.val : ℚ) ^ e.value ≤ a ∧ a < (R.val : ℚ) ^ (e.value + 1) ∧
      (∃ d, n.mantissa.numerator.whole = [d] ∧ d.val ≠ 0) ∧ a - w < (R.val : ℚ) ^ (e.value - p)

/-- Digits that are cut off denote zero only if there is nothing in front of the place. -/
theorem IsCutOff.pos {n : Positional R} (h : IsCutOff p a n) (ha : 1 / (R.val : ℚ) ^ p ≤ a) :
    0 < n.value := by
  linarith [h.lt_value]

/-- Digits and perhaps an exponent, without a fraction bar. -/
def Positional.scaled (m : Positional R) (e : Option (Exponent R)) : Unsigned R :=
  ⟨⟨m, none⟩, e⟩

/-- Digits with an exponent have their value times the power of the radix. -/
theorem Positional.value_scaled (m : Positional R) (e : Option (Exponent R)) :
    (m.scaled e).value = m.value * (R.val : ℚ) ^ (m.scaled e).power := by
  rw [scaled, Unsigned.value, Fraction.value, Fraction.divisor, Option.elim_none, div_one]

/-- The text of digits with an exponent. -/
theorem Positional.text_scaled (m : Positional R) (e : Option (Exponent R)) :
    (m.scaled e).text = m.text ++ e.elim [] Exponent.text := by
  rw [scaled, Unsigned.text, Fraction.text, Fraction.textBelow, List.append_nil]

/-- The digits of a number divided by a power of the radix are off by that power times the last
place at most. -/
theorem IsCutOff.scaled {m : Positional R} {e : Option (Exponent R)}
    (h : IsCutOff p (a / (R.val : ℚ) ^ (m.scaled e).power) m) :
    (m.scaled e).value ≤ a ∧
    a - (m.scaled e).value < (R.val : ℚ) ^ ((m.scaled e).power - (p : ℤ)) := by
  have hR : (0 : ℚ) < R.val := Nat.cast_pos.mpr R.val_pos
  rw [m.value_scaled]
  generalize (m.scaled e).power = k at h ⊢
  have hpower : (0 : ℚ) < (R.val : ℚ) ^ k := zpow_pos hR k
  refine ⟨(le_div_iff₀ hpower).mp h.value_le, ?_⟩
  have hlt := (div_lt_iff₀ hpower).mp h.lt_value
  calc a - m.value * (R.val : ℚ) ^ k
      < (m.value + 1 / (R.val : ℚ) ^ p) * (R.val : ℚ) ^ k - m.value * (R.val : ℚ) ^ k :=
    sub_lt_sub_right hlt _
    _ = (R.val : ℚ) ^ k / (R.val : ℚ) ^ p := by ring
    _ = (R.val : ℚ) ^ (k - p) := by rw [zpow_sub₀ hR.ne', zpow_natCast]

/-- An exponent is needed for a large number and for one that is less than the last place. -/
theorem needsExponent_iff : R.needsExponent p a = true ↔
    (R.val : ℚ) ^ 6 ≤ a ∨ a < (R.val : ℚ) ^ (-(p : ℤ)) := by
  rw [needsExponent, Bool.or_eq_true, decide_eq_true_iff, decide_eq_true_iff, scientificFrom]

/-- Where no exponent is needed, the digits are those of the number itself. -/
theorem exists_isTruncation_plain (h : 0 ≤ a) (hneeds : ¬(a ≠ 0 ∧ R.needsExponent p a)) :
    ∃ n : Unsigned R, n.text = R.writeTruncated p a ∧ IsTruncation p a n.value n := by
  obtain ⟨m, hm⟩ := exists_isCutOff R p h
  have hpower : (m.scaled none).power = 0 := rfl
  have hvalue : (m.scaled none).value = m.value := by
    rw [m.value_scaled, hpower, zpow_zero, mul_one]
  obtain ⟨hle, hlt⟩ := IsCutOff.scaled (e := none) (by rwa [hpower, zpow_zero, div_one])
  rw [hpower, zero_sub] at hlt
  rw [needsExponent_iff] at hneeds
  -- A number that is not zero and needs no exponent has a digit in front of the last place.
  have hpos : a ≠ 0 → 0 < m.value := by
    intro ha
    have hlarge := (not_or.mp (not_and.mp hneeds ha)).2
    rw [zpow_neg, zpow_natCast, not_lt, ← one_div] at hlarge
    exact hm.pos hlarge
  refine ⟨m.scaled none, by rw [m.text_scaled, hm.text_eq, Option.elim_none, List.append_nil], ?_⟩
  exact {
    le := hle
    eq_zero := fun hzero => by_contra fun ha => (hpos ha).ne' (hvalue.symm.trans hzero)
    denominator_eq := rfl
    places_eq := hm.places_eq
    behind_iff := hm.behind_iff
    exponent_iff := iff_of_false Bool.false_ne_true hneeds
    plain := fun _ => hlt
    scientific := nofun }

/-- A number from one up to the radix has one digit before its point, which is not zero. -/
theorem IsCutOff.exists_whole_eq {m : Positional R} (h : IsCutOff p a m) (hone : 1 ≤ a)
    (hradix : a < R.val) :
    ∃ d, m.whole = [d] ∧ d.val ≠ 0 := by
  have hfloor : ⌊a⌋₊ < R.val := (Nat.floor_lt (zero_le_one.trans hone)).mpr hradix
  have hdigits := h.whole_eq
  rw [digits, digitsOnto, if_pos hfloor, List.map_eq_singleton_iff] at hdigits
  obtain ⟨d, hd, hval⟩ := hdigits
  exact ⟨d, hd, hval ▸ (Nat.floor_pos.mpr hone).ne'⟩

/-- With an exponent, the digits are those of the number divided by the power of the radix below
it. -/
theorem exists_isTruncation_scientific (h : 0 < a) (hneeds : R.needsExponent p a) :
    ∃ n : Unsigned R, n.text = R.writeScientific p a ∧ IsTruncation p a n.value n := by
  have hR : (0 : ℚ) < R.val := Nat.cast_pos.mpr R.val_pos
  obtain ⟨e, htext, hexponent⟩ := exists_exponent R (R.magnitude a)
  have hpower : (0 : ℚ) < (R.val : ℚ) ^ e.value := zpow_pos hR _
  have hbelow : (R.val : ℚ) ^ e.value ≤ a := by
    rw [hexponent, magnitude_eq_log h]
    exact Int.zpow_log_le_self R.two_le h
  have habove : a < (R.val : ℚ) ^ (e.value + 1) := by
    rw [hexponent, magnitude_eq_log h]
    exact Int.lt_zpow_succ_log_self R.two_le a
  -- What is left of the number is at least one and less than the radix.
  have hone : 1 ≤ a / (R.val : ℚ) ^ e.value := (one_le_div hpower).mpr hbelow
  have hradix : a / (R.val : ℚ) ^ e.value < R.val := by
    rw [div_lt_iff₀ hpower, ← zpow_one_add₀ hR.ne', add_comm]
    exact habove
  obtain ⟨m, hm⟩ := exists_isCutOff R p (zero_le_one.trans hone)
  obtain ⟨hle, hlt⟩ := IsCutOff.scaled (e := some e) hm
  have hplace : 1 / (R.val : ℚ) ^ p ≤ 1 := by
    rw [div_le_one (pow_pos hR p)]
    exact one_le_pow₀ (Nat.one_le_cast.mpr R.val_pos)
  have hpos : 0 < (m.scaled (some e)).value := by
    rw [m.value_scaled]
    exact mul_pos (hm.pos (hplace.trans hone)) hpower
  refine ⟨m.scaled (some e), ?_, ?_⟩
  · rw [m.text_scaled, hm.text_eq, Option.elim_some, htext, hexponent]
    rfl
  · exact {
      le := hle
      eq_zero := fun hzero => absurd hzero hpos.ne'
      denominator_eq := rfl
      places_eq := hm.places_eq
      behind_iff := hm.behind_iff
      exponent_iff := iff_of_true rfl ⟨h.ne', needsExponent_iff.mp hneeds⟩
      plain := nofun
      scientific := by
        rintro _ ⟨⟩
        exact ⟨hbelow, habove, hm.exists_whole_eq hone hradix, hlt⟩ }

/-- A number without its sign is not negative. -/
theorem Unsigned.value_nonneg (n : Unsigned R) : 0 ≤ n.value := by
  have hpositional : ∀ m : Positional R, 0 ≤ m.value := fun m => by
    rw [Positional.value]
    positivity
  have hdivisor : 0 ≤ n.mantissa.divisor := by
    rw [Fraction.divisor]
    cases n.mantissa.denominator with
    | none => exact zero_le_one
    | some d => exact hpositional d
  exact mul_nonneg (div_nonneg (hpositional _) hdivisor) (zpow_nonneg (Nat.cast_nonneg _) _)

/-- The text of a rational that is cut off: its sign, and what is written for its magnitude. -/
theorem writeApprox_eq (R : Radix) (p : ℕ) (q : ℚ) : ∃ n : Unsigned R,
    R.writeApprox p q = signText (q < 0) ++ n.text ∧ IsTruncation p |q| n.value n := by
  have hsigned : ∀ cs, signed q cs = signText (q < 0) ++ cs := fun cs => by
    simp only [signed, signText, decide_eq_true_eq]
    split_ifs <;> rfl
  rw [writeApprox, rat_abs_eq, hsigned]
  split_ifs with hneeds
  · obtain ⟨n, htext, hn⟩ := exists_isTruncation_scientific (abs_pos.mpr hneeds.1) hneeds.2
    exact ⟨n, by rw [htext], hn⟩
  · rw [← abs_ne_zero] at hneeds
    obtain ⟨n, htext, hn⟩ := exists_isTruncation_plain (abs_nonneg q) hneeds
    exact ⟨n, by rw [htext], hn⟩

/-- The approximate digits of a rational are read back as a number with the same sign that is no
larger in magnitude and closer to it than the last place is worth. -/
theorem writeApprox_isTruncation (R : Radix) (p : ℕ) (q : ℚ) : ∃ (n : Unsigned R) (v : ℚ),
    R.writeApprox p q = signText (q < 0) ++ n.text ∧ R.readNumeral (R.writeApprox p q) = .ok v ∧
      SignType.sign v = SignType.sign q ∧ IsTruncation p |q| |v| n := by
  obtain ⟨n, htext, hn⟩ := writeApprox_eq R p q
  have hpos : q ≠ 0 → 0 < n.value := fun hq =>
    n.value_nonneg.lt_of_ne fun hzero => hq (abs_eq_zero.mp (hn.eq_zero hzero.symm))
  have hdivisor : n.mantissa.divisor ≠ 0 := by
    rw [Fraction.divisor, hn.denominator_eq]
    exact one_ne_zero
  have habs : |if q < 0 then -n.value else n.value| = n.value := by
    split_ifs
    · rw [abs_neg, abs_of_nonneg n.value_nonneg]
    · rw [abs_of_nonneg n.value_nonneg]
  refine ⟨n, if q < 0 then -n.value else n.value, htext, ?_, ?_, by rwa [habs]⟩
  · rw [htext, readNumeral_signText, if_neg hdivisor]
    simp only [decide_eq_true_eq]
  · rcases lt_trichotomy q 0 with hq | rfl | hq
    · rw [if_pos hq, sign_neg hq, sign_neg (neg_lt_zero.mpr (hpos hq.ne))]
    · have hzero : n.value = 0 := le_antisymm (hn.le.trans_eq abs_zero) n.value_nonneg
      rw [if_neg (lt_irrefl 0), hzero]
    · rw [if_neg hq.not_gt, sign_pos hq, sign_pos (hpos hq.ne')]

/-- Digits are cut off and not rounded. -/
example : decimal.writeApprox 3 (-9999999 / 2) = "-4.999ᴇ6".toList := by decide +kernel

end StackAlgebra.Radix
