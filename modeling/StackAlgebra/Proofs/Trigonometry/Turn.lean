import StackAlgebra.Proofs.Operator.Exponentiation
import StackAlgebra.Proofs.Trigonometry.SpecialAngle

/-!
# Sine, cosine and tangent of turns

A number of turns, as an angle in any measure, is divided by the full turn of the measure to the
same number again (`toTurns_angleAt`), so that sine, cosine and tangent find the special angles in
every measure. Where they do, the result denotes the value (`atTurns_sin`, `atTurns_cos`,
`atTurns_tan`). Hence the laws of the functions hold as equalities of expressions (`sineLaws`,
`tangentLaws`, `mul_tan_cos`), whatever the measure.
-/

namespace StackAlgebra

open StackAlgebra.Expr (num nonNumbers coefficientOf)
open StackAlgebra.Canonical
open StackAlgebra.Canonical.SpecialAngle
open scoped List

variable {a r x : Expr} {t : Rat} {m : AngleMeasure} {f : AngleFunction}

/-! ## Turns of a measure -/

/-- A full turn is a stable expression other than zero, a number but for `π`. -/
theorem fullTurn_spec (m : AngleMeasure) : (fullTurn m).IsStable ∧ fullTurn m ≠ num 0 ∧
    ∀ f ∈ nonNumbers (fullTurn m).factors, f = .const .pi := by
  have number (q : Rat) (hq : q ≠ 0) : (num q).IsStable ∧ num q ≠ num 0 ∧
      ∀ f ∈ nonNumbers (num q).factors, f = .const .pi :=
    ⟨Expr.isStable_num q, by simpa using hq, List.forall_mem_nil _⟩
  cases m with
  | rad =>
    have hdistinct : (fullTurn .rad).HasDistinctBases :=
      .intro (List.pairwise_singleton _ _)
        (.pair (Expr.isStable_num 2).distinct (Expr.isStable_const .pi).distinct)
    refine ⟨⟨settled_fullTurn .rad, hdistinct, isMeasured_fullTurn .rad⟩,
      by simp [fullTurn, AngleMeasure.hasPi], ?_⟩
    exact List.forall_mem_singleton.mpr rfl
  | _ => exact number _ (by decide)

/-- A full turn has a reciprocal. -/
theorem exists_reciprocal_fullTurn (m : AngleMeasure) :
    ∃ r : Expr, power (fullTurn m) (num (-1)) = .ok r ∧
    r.IsStable ∧ product [fullTurn m, r] = .ok (num 1) := by
  obtain ⟨hs, h0, hpi⟩ := fullTurn_spec m
  have hsum : ¬(fullTurn m).IsNumberOverSum := by
    rintro ⟨c, ts, -, h⟩
    have hmem : Expr.power (.sum ts) (num (-1)) ∈ nonNumbers (fullTurn m).factors := by
      rw [h]
      exact List.mem_singleton.mpr rfl
    cases hpi _ hmem
  obtain ⟨r, hr, hrs, hone, -⟩ := exists_reciprocal hs h0 (fun f hf => by rw [hpi f hf]; nofun) hsum
  exact ⟨r, hr, hrs, hone⟩

/-- What has a reciprocal has a coefficient other than zero. -/
theorem coefficientOf_ne_zero_of_reciprocal (h : ∀ f ∈ [a, r], f.IsSettled)
    (hone : product [a, r] = .ok (num 1)) :
    coefficientOf a.factors ≠ 0 := by
  intro hc
  -- If the coefficient is zero, so is the product.
  have hzero : coefficientOf ([a, r].flatMap Expr.factors) = 0 := by
    rw [List.flatMap_cons, coefficientOf_append, hc, zero_mul]
  rw [product_eq_zero h hzero] at hone
  cases hone

/-- A rational times a stable expression, divided by the expression, is the rational, unless it is
distributed over a sum. -/
theorem product_product_reciprocal
    (ha : a.IsStable) (hsum : ∀ f ∈ nonNumbers a.factors, f.isSum = false) (hr : r.IsStable)
    (hone : product [a, r] = .ok (num 1)) (hx : product [num t, a] = .ok x) :
    product [x, r] = .ok (num t) := by
  obtain ⟨y, hy, hxs, -⟩ := hasCoordinates_product_num ha t
  obtain rfl := Except.ok.inj (hx.symm.trans hy)
  have hspread (c : Rat) : spread? c (nonNumbers a.factors) = none := by
    refine spread?_eq_none fun ts hfactors => ?_
    have hmem : Expr.sum ts ∈ nonNumbers a.factors := hfactors ▸ List.mem_singleton.mpr rfl
    cases hsum _ hmem
  have hsettled : ∀ f ∈ [a, r], f.IsSettled := by simpa using ⟨ha.settled, hr.settled⟩
  rw [product_num_eq ha] at hx
  split_ifs at hx with h0
  · have hc := coefficientOf_ne_zero_of_reciprocal hsettled hone
    obtain rfl := Except.ok.inj hx
    rw [(mul_eq_zero.mp h0).resolve_right hc, product_num_eq hr, if_pos (zero_mul _)]
  · rw [distribute, hspread] at hx
    obtain ⟨rfl, -⟩ := inOrder_eq_ok_iff.mp hx
    obtain ⟨hc, hrest⟩ := factors_productOf (c := t * coefficientOf a.factors)
      (fun f hf => (isFactor_of_mem ha f hf).not_isNum)
      (fun f hf => (isFactor_of_mem ha f hf).not_isProduct) h0
    have hbases : ∀ f ∈ [a, r], f.IsSettled ∧ HasStableBases f := by
      simpa using ⟨⟨ha.settled, hasStableBases_of_isStable ha⟩, hr.settled,
          hasStableBases_of_isStable hr⟩
    -- The rational can as well be multiplied with the product of the others, which is one.
    have hlast : product ([a, r] ++ [num t]) = .ok (num t) := by
      rw [product_append_num hbases hone (Expr.isStable_num 1), product_num_num, mul_one]
    refine product_congr_factors (Expr.settled_append_num hsettled t) ?_ ?_ ?_ hlast
    · simpa using ⟨hxs.settled, hr.settled⟩
    · simp only [List.flatMap_cons, List.flatMap_nil, List.cons_append, List.nil_append,
        coefficientOf_append, hc]
      simp only [Expr.factors, coefficientOf]
      ring
    · simp only [List.flatMap_cons, List.flatMap_nil, List.cons_append, List.nil_append,
        Expr.nonNumbers_append]
      have hnum : nonNumbers (num t).factors = [] := rfl
      rw [hnum]
      simpa using hrest.symm.append_right _

/-- An angle of `t` turns in a measure, as a canonical expression. -/
def angleAt (t : Rat) (m : AngleMeasure) : Except Error Expr :=
  (Expr.product [num t, fullTurn m]).simplify

/-- A function of an angle of `t` turns in a measure, as a canonical expression. -/
def atTurns (f : AngleFunction) (t : Rat) (m : AngleMeasure) : Except Error Expr := do
  (Expr.angle f (← angleAt t m) (some m.name)).simplify

/-- An angle of `t` turns is `t` turns, in any measure. -/
theorem toTurns_angleAt (t : Rat) (m : AngleMeasure) :
    ∃ x : Expr, angleAt t m = .ok x ∧ x.IsStable ∧ toTurns x m = .ok (num t) := by
  obtain ⟨hs, -, hpi⟩ := fullTurn_spec m
  obtain ⟨r, hr, hrs, hone⟩ := exists_reciprocal_fullTurn m
  obtain ⟨x, hx, hxs, -⟩ := hasCoordinates_product_num hs t
  refine ⟨x, ?_, hxs, ?_⟩
  · rw [angleAt, Expr.simplify_product (.cons rfl (.cons hs.simplify .nil)), hx]
  · rw [toTurns, hr]
    exact product_product_reciprocal hs (fun f hf => by rw [hpi f hf]; rfl) hrs hone hx

/-- The name of a measure stands for it. -/
theorem measureOf_name (m : AngleMeasure) : measureOf (some m.name) = .ok m := by
  cases m <;> rfl

/-- A function of an angle of `t` turns is the special value there, if there is one, and stays as it
is otherwise. -/
theorem atTurns_eq (hf : f.isInverse = false) (t : Rat) (m : AngleMeasure) :
    ∃ x, angleAt t m = .ok x ∧ atTurns f t m = (specialValue? f t >>= fun
      | some v => v.toExpr
      | none => .ok (.angle f x (some m.name))) := by
  obtain ⟨x, hx, hxs, ht⟩ := toTurns_angleAt t m
  refine ⟨x, hx, ?_⟩
  have hsimplify : (Expr.angle f x (some m.name)).simplify = ofAngle f x (some m.name) := by
    show (x.simplify >>= fun x => Canonical.angle f x (some m.name)) = _
    rw [hxs.simplify]
    show Canonical.angle f x (some m.name) = _
    rw [Canonical.angle, hf]
    rfl
  rw [atTurns, hx]
  refine hsimplify.trans ?_
  rw [ofAngle, measureOf_name]
  change (toTurns x m >>= _) = _
  rw [ht]
  rfl

/-! ## Values -/

/-- The computation comes to a result, which has no function of angles exactly under this
condition. -/
def FoldsIff (x : Except Error Expr) (p : Prop) : Prop :=
  ∃ r, x = .ok r ∧ (r.HasNoAngle ↔ p)

/-- A function that finds special values folds exactly where it finds one, if what it finds denotes
something. -/
theorem foldsIff_atTurns {v : Option Value} {y : ℝ} {p : Prop} (hf : f.isInverse = false)
    (hv : specialValue? f t = .ok v) (hp : v.isSome = true ↔ p)
    (hy : ∀ w, v = some w → Denotes w.toExpr y) (m : AngleMeasure) :
    FoldsIff (atTurns f t m) p ∧ (p → Denotes (atTurns f t m) y) := by
  obtain ⟨x, -, heq⟩ := atTurns_eq hf t m
  rw [hv] at heq
  rw [← hp, heq]
  cases v with
  | none => exact ⟨⟨_, rfl, iff_of_false (Expr.not_hasNoAngle_angle _ _ _) (by simp)⟩, by simp⟩
  | some w =>
    have hd := hy w rfl
    obtain ⟨r, hr, -, hno⟩ := hd.exists_ok
    exact ⟨⟨r, hr, iff_of_true hno rfl⟩, fun _ => hd⟩

/-- The sine folds exactly at the whole numbers of twelfths and of eighths of a full turn, to its
value. -/
theorem atTurns_sin (t : Rat) (m : AngleMeasure) :
    FoldsIff (atTurns .sin t m) (IsSpecial t) ∧
      (IsSpecial t → Denotes (atTurns .sin t m) (Real.sin (radians t))) :=
  foldsIff_atTurns rfl rfl (isSome_sine? t) (fun _ => denotes_sine) m

/-- The cosine folds where the sine does, to its value. -/
theorem atTurns_cos (t : Rat) (m : AngleMeasure) :
    FoldsIff (atTurns .cos t m) (IsSpecial t) ∧
      (IsSpecial t → Denotes (atTurns .cos t m) (Real.cos (radians t))) :=
  foldsIff_atTurns rfl rfl (isSome_cosine? t) (fun _ => denotes_cosine) m

/-- The tangent folds exactly at the whole numbers of twenty-fourths of a full turn, to its value,
except at poles. -/
theorem atTurns_tan (h : ¬IsPole t) (m : AngleMeasure) :
    FoldsIff (atTurns .tan t m) (IsWhole (24 * t)) ∧
      (IsWhole (24 * t) → Denotes (atTurns .tan t m) (Real.tan (radians t))) := by
  obtain ⟨v, hv, hsome⟩ := isSome_tangent? h
  exact foldsIff_atTurns (f := .tan) rfl hv hsome (fun w hw => denotes_tangent (hw ▸ hv)) m

/-- The tangent has no value at its poles. -/
theorem atTurns_tan_of_pole (h : IsPole t) (m : AngleMeasure) :
    atTurns .tan t m = .error .tangentPole := by
  obtain ⟨x, -, heq⟩ := atTurns_eq (f := .tan) rfl t m
  rw [heq, specialValue?, (tangent?_eq_error_iff t).mpr h]
  rfl

/-! ## Laws -/

/-- The negation of what denotes a real denotes the negative. -/
theorem denotes_neg {e : Except Error Expr} {y : ℝ} (h : Denotes e y) :
    Denotes (do (Expr.unary .neg (← e)).simplify) (-y) := by
  obtain ⟨s, rfl, hs, -⟩ := h.exists_ok
  change Denotes (Expr.unary .neg s).simplify (-y)
  rw [Expr.simplify_neg hs.simplify]
  exact h.neg

/-- The sum of the squares of multiples of roots denotes the sum of the squares. -/
theorem denotes_sum_squares {e e' : Except Error Expr} {p q : Rat} {n l : Radicand}
    (h : Denotes e (p * √n.toNat)) (h' : Denotes e' (q * √l.toNat)) :
    Denotes (do (Expr.sum [.power (← e) (num 2), .power (← e') (num 2)]).simplify)
      ((p * √n.toNat) ^ 2 + (q * √l.toNat) ^ 2) := by
  obtain ⟨s, rfl, hs, -⟩ := h.exists_ok
  obtain ⟨c, rfl, hc, -⟩ := h'.exists_ok
  change Denotes (Expr.sum [.power s (num 2), .power c (num 2)]).simplify _
  have htwo : (num 2).simplify = .ok (num 2) := rfl
  have hs2 := h.power_two
  have hc2 := h'.power_two
  rw [← Expr.simplify_power hs.simplify htwo] at hs2
  rw [← Expr.simplify_power hc.simplify htwo] at hc2
  obtain ⟨r, hr, -⟩ := hs2.exists_ok
  obtain ⟨u, hu, -⟩ := hc2.exists_ok
  rw [Expr.simplify_sum (.cons hr (.cons hu .nil))]
  exact (hr ▸ hs2).add (hu ▸ hc2)

/-- What holds of sine and cosine at `t` turns in a measure: they are the same after full turns and
in any other measure, the sine is odd and the cosine even, the cosine is the sine a quarter turn
ahead, and their squares add up to one. -/
structure SineLaws (t : Rat) (m : AngleMeasure) : Prop where
  sin_add_int (k : ℤ) (m' : AngleMeasure) : atTurns .sin (t + k) m' = atTurns .sin t m
  cos_add_int (k : ℤ) (m' : AngleMeasure) : atTurns .cos (t + k) m' = atTurns .cos t m
  sin_neg : atTurns .sin (-t) m = (do (Expr.unary .neg (← atTurns .sin t m)).simplify)
  cos_neg : atTurns .cos (-t) m = atTurns .cos t m
  cos_eq_sin : atTurns .cos t m = atTurns .sin (t + 1 / 4) m
  sin_sq_add_cos_sq : (do
    (Expr.sum [.power (← atTurns .sin t m) (num 2),
      .power (← atTurns .cos t m) (num 2)]).simplify) = .ok (num 1)

/-- What holds of the tangent of `t` turns in a measure: it is the same after half turns and in any
other measure, and it is odd. -/
structure TangentLaws (t : Rat) (m : AngleMeasure) : Prop where
  tan_add_half (k : ℤ) (m' : AngleMeasure) : atTurns .tan (t + k / 2) m' = atTurns .tan t m
  tan_neg : atTurns .tan (-t) m = (do (Expr.unary .neg (← atTurns .tan t m)).simplify)

/-- The laws of sine and cosine hold at special angles, since they hold of the values. -/
theorem sineLaws (h : IsSpecial t) (m : AngleMeasure) : SineLaws t m := by
  have hsin := (atTurns_sin t m).2 h
  have hcos := (atTurns_cos t m).2 h
  constructor
  case sin_add_int =>
    intro k m'
    exact ((atTurns_sin (t + k) m').2 ((isSpecial_add_int t k).mpr h)).congr hsin
      (sin_radians_add_int t k)
  case cos_add_int =>
    intro k m'
    exact ((atTurns_cos (t + k) m').2 ((isSpecial_add_int t k).mpr h)).congr hcos
      (cos_radians_add_int t k)
  case sin_neg =>
    have hneg := (atTurns_sin (-t) m).2 ((isSpecial_neg t).mpr h)
    rw [radians_neg, Real.sin_neg] at hneg
    exact hneg.unique (denotes_neg hsin)
  case cos_neg =>
    have hneg := (atTurns_cos (-t) m).2 ((isSpecial_neg t).mpr h)
    rw [radians_neg, Real.cos_neg] at hneg
    exact hneg.unique hcos
  case cos_eq_sin =>
    have hspecial : IsSpecial (t + 1 / 4) := by simpa using (isSpecial_add_quarters t 1).mpr h
    exact hcos.congr ((atTurns_sin (t + 1 / 4) m).2 hspecial) (sin_radians_add_quarter t).symm
  case sin_sq_add_cos_sq =>
    obtain ⟨p, q, n, l, hp, hq, -⟩ := exists_roots h
    rw [hp] at hsin
    rw [hq] at hcos
    refine (denotes_sum_squares hsin hcos).congr (Denotes.num 1) ?_
    rw [← hp, ← hq, Real.sin_sq_add_cos_sq, Rat.cast_one]

/-- The laws of the tangent hold at special angles, since they hold of the values, and where it has
none. -/
theorem tangentLaws (h : IsWhole (24 * t)) (m : AngleMeasure) : TangentLaws t m := by
  by_cases hpole : IsPole t
  · have hself := atTurns_tan_of_pole hpole m
    constructor
    case tan_add_half =>
      intro k m'
      rw [atTurns_tan_of_pole ((isPole_add_half t k).mpr hpole), hself]
    case tan_neg =>
      rw [atTurns_tan_of_pole ((isPole_neg t).mpr hpole), hself]
      rfl
  · have htan := (atTurns_tan hpole m).2 h
    constructor
    case tan_add_half =>
      intro k m'
      have hwhole : IsWhole (24 * (t + k / 2)) := (isWhole_mul_add_half ⟨12, by norm_num⟩ t k).mpr h
      have hadd := (atTurns_tan (mt (isPole_add_half t k).mp hpole) m').2 hwhole
      exact hadd.congr htan (tan_radians_add_half t k)
    case tan_neg =>
      have hwhole : IsWhole (24 * -t) := by
        rw [mul_neg, isWhole_neg]
        exact h
      have hneg := (atTurns_tan (mt (isPole_neg t).mp hpole) m).2 hwhole
      rw [radians_neg, Real.tan_neg] at hneg
      exact hneg.unique (denotes_neg htan)

/-- The quotient of multiples of compatible roots is a multiple of one that is compatible with the
divisor. -/
theorem exists_quotient {p q : Rat} {n l : Radicand} (h : n.Compatible l)
    (h0 : (q * √l.toNat : ℝ) ≠ 0) :
    ∃ (d : Rat) (i : Radicand), p * √n.toNat / (q * √l.toNat) = d * √i.toNat ∧ i.Compatible l := by
  have hq : (q : ℝ) ≠ 0 := left_ne_zero_of_mul h0
  have hl : √(l.toNat : ℝ) ≠ 0 := right_ne_zero_of_mul h0
  rcases h with rfl | rfl | rfl
  · refine ⟨p / q, .one, ?_, .inr (.inl rfl)⟩
    rw [Radicand.sqrt_toNat_one, mul_one, mul_div_mul_right _ _ hl, Rat.cast_div]
  · -- The root in the divisor goes to the numerator.
    refine ⟨p / (q * l.toNat), l, ?_, .inl rfl⟩
    have hself : √(l.toNat : ℝ) * √l.toNat = l.toNat := Real.mul_self_sqrt (Nat.cast_nonneg _)
    have hl0 : (l.toNat : ℝ) ≠ 0 := hself ▸ mul_ne_zero hl hl
    push_cast
    rw [Radicand.sqrt_toNat_one, mul_one, div_eq_iff h0, div_mul_eq_mul_div, div_mul_eq_mul_div,
      eq_div_iff (mul_ne_zero hq hl0)]
    linear_combination -(p * q : ℝ) * hself
  · refine ⟨p / q, n, ?_, .inr (.inr rfl)⟩
    rw [Radicand.sqrt_toNat_one, mul_one, Rat.cast_div, div_mul_eq_mul_div]

/-- Tangent times cosine is sine, where the cosine is not zero. -/
theorem mul_tan_cos (h : IsSpecial t) (m : AngleMeasure) (h0 : atTurns .cos t m ≠ .ok (num 0))
    (measure : String) :
    (do Operator.mul.evaluate measure [← atTurns .tan t m, ← atTurns .cos t m]) =
      atTurns .sin t m := by
  have hsin := (atTurns_sin t m).2 h
  have hcos := (atTurns_cos t m).2 h
  have hne : Real.cos (radians t) ≠ 0 :=
    fun hzero => h0 (hcos.congr (Denotes.num 0) (by simpa using hzero))
  have htan := (atTurns_tan (fun hpole => hne hpole.cos_eq_zero) m).2 h.isWhole
  -- All three are multiples of roots that can be multiplied.
  obtain ⟨p, q, n, l, hp, hq, hroots⟩ := exists_roots h
  obtain ⟨d, i, hd, hi⟩ := exists_quotient (p := p) hroots (hq ▸ hne)
  have hquotient : Real.tan (radians t) = d * √i.toNat := by
    rw [Real.tan_eq_sin_div_cos, hp, hq, hd]
  obtain ⟨r, hr, hrs, -⟩ := htan.exists_ok
  obtain ⟨c, hc, hcs, -⟩ := hcos.exists_ok
  rw [hr, hquotient] at htan
  rw [hc, hq] at hcos
  rw [hr, hc]
  show Operator.mul.evaluate measure [r, c] = _
  rw [Operator.evaluate_mul_of_isStable hrs hcs]
  refine (htan.product hcos hi).congr hsin ?_
  rw [← hquotient, ← hq, Real.tan_mul_cos hne]

/-- Sine and cosine of `t` turns, whatever the measure, fold exactly if `t` is a whole number of
twelfths or of eighths, and obey their laws then. The tangent has no value exactly at odd quarter
turns; elsewhere it folds exactly if `t` is a whole number of twenty-fourths. It obeys its laws
there, and times the cosine it is the sine where both of these fold and the cosine is not zero. -/
theorem special_angle_laws (t : Rat) (m : AngleMeasure) :
    FoldsIff (atTurns .sin t m) (IsSpecial t) ∧ FoldsIff (atTurns .cos t m) (IsSpecial t) ∧
    (IsSpecial t → SineLaws t m) ∧
    ((∃ ε, atTurns .tan t m = .error ε ∧ ε.kind = .undefined) ↔ IsPole t) ∧
    (¬IsPole t → FoldsIff (atTurns .tan t m) (IsWhole (24 * t))) ∧
    (IsWhole (24 * t) → TangentLaws t m) ∧
    (IsSpecial t → atTurns .cos t m ≠ .ok (num 0) → ∀ measure,
      (do Operator.mul.evaluate measure [← atTurns .tan t m, ← atTurns .cos t m]) =
        atTurns .sin t m) := by
  refine ⟨(atTurns_sin t m).1, (atTurns_cos t m).1, fun h => sineLaws h m, ⟨?_, ?_⟩,
    fun h => (atTurns_tan h m).1, fun h => tangentLaws h m, fun h h0 => mul_tan_cos h m h0⟩
  · rintro ⟨ε, hε, -⟩
    by_contra hpole
    obtain ⟨r, hr, -⟩ := (atTurns_tan hpole m).1
    rw [hr] at hε
    cases hε
  · exact fun hpole => ⟨_, atTurns_tan_of_pole hpole m, rfl⟩

end StackAlgebra
