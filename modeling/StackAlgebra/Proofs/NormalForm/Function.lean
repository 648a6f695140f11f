import StackAlgebra.Proofs.NormalForm.Product
import Mathlib.Data.Rat.Lemmas
import Mathlib.Data.Nat.Prime.Basic
import Mathlib.Algebra.Group.Nat.Even

/-!
# Functions of settled expressions

Every function of the expression language takes settled operands to a settled result. A logarithm, a
remainder or a function of an angle that is left standing is one that has just been tried in vain,
so that it folds no further. The values of sine and tangent that are tabulated are settled as well
(`settled_sines`, `settled_tangents`), since neither two nor three is a square.
-/

namespace StackAlgebra.Canonical

open StackAlgebra.Expr (num)

variable {x b r : Expr} {c : Rat} {name : Option String}

/-! ## Absolute values -/

/-- The coefficient of a settled expression other than a number stands beside the rest of it. -/
theorem splitCoefficient_spec (h : x.IsSettled) (hn : x.isNum = false) :
    ∃ c rest, x.splitCoefficient = (c, some rest) ∧
      (c ≠ 1 → rest.IsMonic ∧ c ≠ 0 ∧ x = term c rest) := by
  cases hs : x.isSum with
  | true =>
    cases x with
    | sum ts => exact ⟨1, .sum ts, rfl, fun h1 => absurd rfl h1⟩
    | _ => cases hs
  | false =>
    obtain ⟨c, rest, h0, hr, rfl⟩ := h.exists_term hn hs
    exact ⟨c, rest, hr.splitCoefficient_term c, fun _ => ⟨hr, h0, rfl⟩⟩

/-- The absolute value of what is neither a number nor seen to be never negative. -/
theorem abs_eq (hn : x.isNum = false) (hp : isNonnegative x = false) {rest : Expr}
    (hs : x.splitCoefficient = (c, some rest)) :
    abs x = if c = 1 then .ok (.unary .abs x) else product [num c.abs, absRest rest] := by
  cases x with
  | num q => cases hn
  | _ => simp only [abs, hp, hs, Bool.false_eq_true, if_false]

/-- The absolute value of what is seen to be never negative. -/
theorem abs_of_isNonnegative (hn : x.isNum = false) (hp : isNonnegative x = true) :
    abs x = .ok x := by
  cases x with
  | num q => cases hn
  | _ => simp only [abs, hp, if_true]

/-- What stands beside a coefficient has none of its own. -/
theorem coefficient_of_isMonic (h : x.IsMonic) : x.splitCoefficient.1 = 1 := by
  have hs := h.splitCoefficient_term 1
  rw [term, if_pos rfl] at hs
  rw [hs]

/-- The absolute value of what stands beside a coefficient is settled. -/
theorem settled_absRest (h : x.IsMonic) : (absRest x).IsSettled := by
  unfold absRest
  split_ifs with hp
  · exact h.settled
  · refine Expr.settled_unary_iff.mpr
      ⟨rfl, ⟨?_, Bool.not_eq_true _ ▸ hp, coefficient_of_isMonic h⟩, h.settled⟩
    have hk := (h.kind_term 1).1
    rwa [term, if_pos rfl] at hk

/-- The ways in which the absolute value of `x` comes to its result `r`: `x` is a number, is seen to
be never negative, stays as it is under the bars, or has its coefficient taken out. -/
inductive Absolute (x r : Expr) : Prop where
  | number (q : Rat) (hx : x = num q) (hr : r = num q.abs)
  | nonnegative (hn : x.isNum = false) (hp : isNonnegative x = true) (hr : r = x)
  | stays (hn : x.isNum = false) (hp : isNonnegative x = false) (h1 : x.splitCoefficient.1 = 1)
      (hr : r = .unary .abs x)
  | scaled (c : Rat) (rest : Expr) (hm : rest.IsMonic) (hx : x = term c rest)
      (hr : product [num c.abs, absRest rest] = .ok r)

/-- An absolute value comes to its result in one of the ways named. -/
theorem abs_eq_ok (hx : x.IsSettled) (h : abs x = .ok r) : Absolute x r := by
  cases hn : x.isNum with
  | true =>
    obtain ⟨q, rfl⟩ := Expr.exists_eq_num hn
    exact .number q rfl (Except.ok.inj h).symm
  | false =>
    cases hp : isNonnegative x with
    | true =>
      rw [abs_of_isNonnegative hn hp] at h
      exact .nonnegative hn hp (Except.ok.inj h).symm
    | false =>
      obtain ⟨c, rest, hs, hrest⟩ := splitCoefficient_spec hx hn
      rw [abs_eq hn hp hs] at h
      split_ifs at h with h1
      · exact .stays hn hp (by rw [hs, h1]) (Except.ok.inj h).symm
      · exact .scaled c rest (hrest h1).1 (hrest h1).2.2 h

/-- The absolute value of a settled expression is settled. -/
theorem settled_abs (hx : x.IsSettled) (h : abs x = .ok r) : r.IsSettled := by
  cases abs_eq_ok hx h with
  | number q _ hr => exact hr ▸ Expr.settled_num _
  | nonnegative _ _ hr => exact hr ▸ hx
  | stays hn hp h1 hr => exact hr ▸ Expr.settled_unary_iff.mpr ⟨rfl, ⟨hn, hp, h1⟩, hx⟩
  | scaled c rest hm _ hr =>
    exact settled_product (by simpa using ⟨Expr.settled_num _, settled_absRest hm⟩) hr

/-- A settled absolute value stays as it is. -/
theorem abs_fixed (h : (Expr.unary .abs x).IsSettled) : abs x = .ok (.unary .abs x) := by
  obtain ⟨-, ha, hx⟩ := Expr.settled_unary_iff.mp h
  obtain ⟨c, rest, hs, -⟩ := splitCoefficient_spec hx ha.not_isNum
  have h1 : c = 1 := by
    have hc := ha.coefficient
    rwa [hs] at hc
  rw [abs_eq ha.not_isNum ha.not_isNonnegative hs, if_pos h1]

/-! ## Logarithms -/

/-- The exponent to which `x` is a power by its form is zero, one, or that of a power. -/
theorem exponentOf?_eq_some {e : Expr} (h : exponentOf? x b = some e) :
    (∃ q, e = num q) ∨ ∃ b', x = .power b' e := by
  unfold exponentOf? at h
  split_ifs at h
  · exact .inl ⟨0, (Option.some.inj h).symm⟩
  · exact .inl ⟨1, (Option.some.inj h).symm⟩
  · cases x with
    | power b' e' =>
      simp only at h
      split_ifs at h
      exact .inr ⟨b', by rw [Option.some.inj h]⟩
    | _ => cases h

/-- The logarithm of a number is a number or stands. -/
theorem numberLog_eq_ok {p q : Rat} (h : numberLog p q = .ok r) :
    (∃ k, r = num k) ∨ r = .log (num p) (num q) := by
  unfold numberLog at h
  split at h
  · cases h
  · split at h
    · exact .inl ⟨_, (Except.ok.inj h).symm⟩
    · exact .inr (Except.ok.inj h).symm

/-- A logarithm is a number, the exponent of a power, or stands. -/
theorem log_eq_ok (h : log x b = .ok r) :
    (∃ k, r = num k) ∨ (∃ b', x = .power b' r) ∨ r = .log x b := by
  unfold log at h
  obtain ⟨-, -, h⟩ := bind_eq_ok_iff.mp h
  obtain ⟨-, -, h⟩ := bind_eq_ok_iff.mp h
  cases he : exponentOf? x b with
  | some e =>
    rw [he] at h
    rw [Except.ok.inj h] at he
    exact (exponentOf?_eq_some he).imp_right .inl
  | none =>
    rw [he] at h
    simp only at h
    split at h
    · exact (numberLog_eq_ok h).imp_right .inr
    · exact .inr (.inr (Except.ok.inj h).symm)

/-- The logarithm of settled expressions is settled. -/
theorem settled_log (hx : x.IsSettled) (hb : b.IsSettled) (h : log x b = .ok r) : r.IsSettled := by
  rcases log_eq_ok h with ⟨k, rfl⟩ | ⟨b', rfl⟩ | rfl
  · exact Expr.settled_num _
  · exact (Expr.settled_power_iff.mp hx).2.2
  · exact Expr.settled_log_iff.mpr ⟨h, hx, hb⟩

/-! ## Remainders -/

/-- A remainder is a number or stands. -/
theorem mod_eq_ok {d : Expr} (h : mod x d = .ok r) : (∃ q, r = num q) ∨ r = .mod x d := by
  unfold mod at h
  split_ifs at h
  split at h
  · exact .inl ⟨_, (Except.ok.inj h).symm⟩
  · split_ifs at h
    · exact .inl ⟨_, (Except.ok.inj h).symm⟩
    · exact .inr (Except.ok.inj h).symm

/-- The remainder of settled expressions is settled. -/
theorem settled_mod {d : Expr} (hx : x.IsSettled) (hd : d.IsSettled) (h : mod x d = .ok r) :
    r.IsSettled := by
  rcases mod_eq_ok h with ⟨q, rfl⟩ | rfl
  · exact Expr.settled_num _
  · exact Expr.settled_mod_iff.mpr ⟨h, hx, hd⟩

/-! ## Special angles -/

/-- The square root of a number that is no square is settled. -/
theorem settled_squareRoot {n : ℕ} (h : ¬ IsSquare n) (hpos : 0 < n) :
    (SpecialAngle.root n).IsSettled := by
  -- A rational square root of a whole number would be whole.
  have hden : (1 / 2 : Rat).den = 2 := by decide +kernel
  have hn : (0 : Rat) < n := Nat.cast_pos.mpr hpos
  refine settled_root (by rw [hden]; decide) (by norm_num) (by norm_num) (.inl hn) ?_
  rintro ⟨r, hr⟩
  rw [hden, abs_of_pos hn, pow_two] at hr
  exact h (Rat.isSquare_natCast_iff.mp ⟨r, hr.symm⟩)

/-- The square root of two is settled. -/
theorem settled_root_two : (SpecialAngle.root 2).IsSettled :=
  settled_squareRoot (n := 2) (Nat.prime_two.prime.not_isSquare) (by decide)

/-- The square root of three is settled. -/
theorem settled_root_three : (SpecialAngle.root 3).IsSettled :=
  settled_squareRoot (n := 3) (Nat.prime_three.prime.not_isSquare) (by decide)

/-- A rational other than zero and one times an expression without coefficient is settled. -/
theorem settled_scaled (hx : x.IsSettled) (hn : x.isNum = false) (hs : x.isSum = false)
    (hp : x.isProduct = false) (h0 : c ≠ 0) (h1 : c ≠ 1) : (Expr.product [num c, x]).IsSettled := by
  have hm := Expr.isMonic_of_not_isProduct hx hn hs hp
  have ht := hm.settled_term h0
  rwa [hm.term_of_ne_one h1, Expr.factors_of_not_isProduct hp] at ht

/-- A rational other than zero and a single term make a settled sum. -/
theorem settled_num_add (hx : x.IsSettled) (hn : x.isNum = false) (hs : x.isSum = false)
    (h0 : c ≠ 0) :
    (Expr.sum [num c, x]).IsSettled := by
  have hmem : ∀ q, num q ∈ [num c, x] → q = c := by
    intro q hq
    rcases List.mem_cons.mp hq with hq | hq
    · exact Expr.num.inj hq
    · rw [← List.mem_singleton.mp hq] at hn
      cases hn
  refine Expr.settled_sum_iff.mpr ⟨?_, Expr.areComparable_num_cons c rfl, ?_⟩
  · refine ⟨by simp, List.forall_mem_cons.mpr ⟨rfl, by simpa using hs⟩, ?_,
      fun q hq => hmem q hq ▸ h0, ?_, ?_⟩
    · rw [List.filter_cons_of_pos rfl, List.filter_cons_of_neg (by simp [hn])]
      simp
    · simpa using Expr.num_lt c hn
    · have hlen : ([num c, x].filterMap Expr.rest?).length ≤ 1 := by
        rw [List.filterMap_cons_none rfl]
        exact List.length_filterMap_le _ _
      match [num c, x].filterMap Expr.rest?, hlen with
      | [], _ => exact .nil
      | [_], _ => exact List.pairwise_singleton _ _
  · simpa using ⟨Expr.settled_num c, hx⟩

/-- The tabulated sines are settled. -/
theorem settled_sines : ∀ p ∈ SpecialAngle.sines, p.2.IsSettled := by
  intro p hp
  simp only [SpecialAngle.sines, List.mem_cons, List.not_mem_nil, or_false] at hp
  rcases hp with rfl | rfl | rfl | rfl | rfl
  · exact Expr.settled_num 0
  · exact Expr.settled_num _
  · exact settled_scaled settled_root_two rfl rfl rfl (by norm_num) (by norm_num)
  · exact settled_scaled settled_root_three rfl rfl rfl (by norm_num) (by norm_num)
  · exact Expr.settled_num 1

/-- The tabulated tangents are settled. -/
theorem settled_tangents : ∀ p ∈ SpecialAngle.tangents, p.2.IsSettled := by
  intro p hp
  simp only [SpecialAngle.tangents, List.mem_cons, List.not_mem_nil, or_false] at hp
  rcases hp with rfl | rfl | rfl | rfl | rfl | rfl
  · exact Expr.settled_num 0
  · refine settled_num_add ?_ rfl rfl (by norm_num)
    exact settled_scaled settled_root_three rfl rfl rfl (by norm_num) (by norm_num)
  · exact settled_scaled settled_root_three rfl rfl rfl (by norm_num) (by norm_num)
  · exact Expr.settled_num 1
  · exact settled_root_three
  · exact settled_num_add settled_root_three rfl rfl (by norm_num)

/-- The tabulated values. -/
def tabulated : List Expr :=
  (SpecialAngle.sines ++ SpecialAngle.tangents).map Prod.snd

/-- The tabulated values are settled. -/
theorem settled_tabulated {e : Expr} (h : e ∈ tabulated) : e.IsSettled := by
  obtain ⟨p, hp, rfl⟩ := List.mem_map.mp h
  rcases List.mem_append.mp hp with hp | hp
  · exact settled_sines p hp
  · exact settled_tangents p hp

/-- What is looked up in a table is in the table. -/
theorem mem_of_lookup? {table : List (Rat × Expr)} {n : Bool} {t : Rat} {v : SpecialAngle.Value}
    (h : SpecialAngle.lookup? table n t = some v) : v.magnitude ∈ table.map Prod.snd := by
  obtain ⟨e, he, rfl⟩ := Option.map_eq_some_iff.mp h
  obtain ⟨l, r, hl, -⟩ := List.lookup_eq_some_iff.mp he
  rw [hl]
  simp

/-- The special values of sine, cosine and tangent are tabulated. -/
theorem mem_of_specialValue? {f : AngleFunction} {t : Rat} {v : SpecialAngle.Value}
    (h : specialValue? f t = .ok (some v)) : v.magnitude ∈ tabulated := by
  rw [tabulated, List.map_append, List.mem_append]
  -- Cosines are looked up as sines of shifted angles.
  have hsine : ∀ t, SpecialAngle.sine? t = some v →
      v.magnitude ∈ SpecialAngle.sines.map Prod.snd := by
    intro t ht
    unfold SpecialAngle.sine? at ht
    dsimp only at ht
    split_ifs at ht
    · exact mem_of_lookup? ht
    · exact mem_of_lookup? ht
  cases f with
  | sin => exact .inl (hsine _ (Except.ok.inj h))
  | cos => exact .inl (hsine _ (Except.ok.inj h))
  | tan =>
    simp only [specialValue?, SpecialAngle.tangent?] at h
    split_ifs at h
    exact .inr (mem_of_lookup? (Except.ok.inj h))
  | _ => cases Except.ok.inj h

/-- A value with its sign is the magnitude or its negative. -/
theorem toExpr_eq_ok {v : SpecialAngle.Value} (h : v.toExpr = .ok r) :
    r = v.magnitude ∨ product [num (-1), v.magnitude] = .ok r := by
  unfold SpecialAngle.Value.toExpr at h
  split_ifs at h
  · exact .inr h
  · exact .inl (Except.ok.inj h).symm

/-! ## Angles -/

/-- A full turn is settled. -/
theorem settled_fullTurn (m : AngleMeasure) : (fullTurn m).IsSettled := by
  unfold fullTurn
  split_ifs with hpi
  · have hm : m = .rad := by
      cases m with
      | rad => rfl
      | _ => cases hpi
    rw [hm]
    exact settled_scaled (Expr.settled_const .pi) rfl rfl rfl (by decide) (by decide)
  · exact Expr.settled_num _

/-- A function of an angle is a tabulated value or its negative, or stands. -/
theorem ofAngle_eq_ok {f : AngleFunction} (h : ofAngle f x name = .ok r) :
    (∃ e ∈ tabulated, r = e ∨ product [num (-1), e] = .ok r) ∨ r = .angle f x name := by
  unfold ofAngle at h
  obtain ⟨m, -, h⟩ := bind_eq_ok_iff.mp h
  obtain ⟨t, -, h⟩ := bind_eq_ok_iff.mp h
  split at h
  · obtain ⟨v, hv, h⟩ := bind_eq_ok_iff.mp h
    cases v with
    | some v => exact .inl ⟨v.magnitude, mem_of_specialValue? hv, toExpr_eq_ok h⟩
    | none => exact .inr (Except.ok.inj h).symm
  · exact .inr (Except.ok.inj h).symm

/-- An angle is a number of turns, or stands. -/
theorem toAngle_eq_ok {f : AngleFunction} (h : toAngle f x name = .ok r) :
    (∃ t m, ofTurns t m = .ok r) ∨ r = .angle f x name := by
  unfold toAngle at h
  obtain ⟨-, -, h⟩ := bind_eq_ok_iff.mp h
  obtain ⟨t, -, h⟩ := bind_eq_ok_iff.mp h
  cases t with
  | some t =>
    obtain ⟨m, -, h⟩ := bind_eq_ok_iff.mp h
    exact .inl ⟨t, m, h⟩
  | none => exact .inr (Except.ok.inj h).symm

/-- A function to or from angles of a settled expression is settled. -/
theorem settled_angle {f : AngleFunction} (hx : x.IsSettled) (h : angle f x name = .ok r) :
    r.IsSettled := by
  -- What stands does not fold, as it has just been tried.
  have hstands : r = .angle f x name → r.IsSettled := by
    rintro rfl
    exact Expr.settled_angle_iff.mpr ⟨h, hx⟩
  unfold angle at h
  split_ifs at h
  · rcases toAngle_eq_ok h with ⟨t, m, ht⟩ | hr
    · exact settled_product (by simpa using ⟨Expr.settled_num _, settled_fullTurn m⟩) ht
    · exact hstands hr
  · rcases ofAngle_eq_ok h with ⟨e, he, rfl | hr⟩ | hr
    · exact settled_tabulated he
    · exact settled_product (by simpa using ⟨Expr.settled_num _, settled_tabulated he⟩) hr
    · exact hstands hr

/-! ## Functions of one operand -/

/-- A function of one settled operand is settled. -/
theorem settled_unary {f : UnaryFunction} (hx : x.IsSettled) (h : unary f x = .ok r) :
    r.IsSettled := by
  cases f with
  | neg => exact settled_product (by simpa using ⟨Expr.settled_num _, hx⟩) h
  | recip => exact settled_power hx (Expr.settled_num _) h
  | abs => exact settled_abs hx h
  | sqrt => exact settled_power hx (Expr.settled_num _) h
  | square => exact settled_power hx (Expr.settled_num _) h
  | ln => exact settled_log hx (Expr.settled_const _) h

end StackAlgebra.Canonical
