import StackAlgebra.Proofs.Value.Product
import StackAlgebra.Proofs.NormalForm.Simplify
import Mathlib.Algebra.Order.BigOperators.Group.List
import Mathlib.Algebra.Order.BigOperators.GroupWithZero.List

/-!
# The canonical form has the value of the expression

Where a rational expression has a value, under any values of its variables and positive ones of its
constants, its canonical form exists and has that value (`simplify_sound`). An expression without
variables and constants comes down to its value, a number, and has no canonical form exactly if it
has no value.
-/

namespace StackAlgebra

namespace Canonical

open StackAlgebra.Expr (num value HasValue)

variable {v : Valuation} {x d r : Expr}

/-! ## Absolute values -/

mutual
/-- What is seen to be never negative is not. -/
theorem value_nonneg_of_isNonnegative (x : Expr) (h : isNonnegative x = true) (hv : x.HasValue v) :
    0 ≤ x.value v := by
  cases x with
  | num q => simpa [isNonnegative] using h
  | const c => exact (v.const_pos c).le
  | sum ts =>
    have ht := Expr.hasValue_sum_iff.mp hv
    rw [Expr.value_sum ht]
    refine List.sum_nonneg fun q hq => ?_
    obtain ⟨t, ht', rfl⟩ := List.mem_map.mp hq
    exact values_nonneg_of_areNonnegative ts h ht t ht'
  | product fs =>
    have hf := Expr.hasValue_product_iff.mp hv
    rw [Expr.value_product hf]
    refine List.prod_nonneg fun q hq => ?_
    obtain ⟨f, hf', rfl⟩ := List.mem_map.mp hq
    exact values_nonneg_of_areNonnegative fs h hf f hf'
  | power b e =>
    obtain ⟨k, rfl, hb, -, hq⟩ := Expr.eval_power_eq_some_iff.mp hv.eval_eq
    rw [← hq]
    rw [isNonnegative, Bool.or_eq_true] at h
    rcases h with h | h
    · exact zpow_nonneg (value_nonneg_of_isNonnegative b h hb) k
    · have heven : Even k := by
        simp only [Expr.isEven, Rat.den_intCast, Rat.num_intCast, decide_true, Bool.true_and] at h
        exact Int.even_iff.mpr (of_decide_eq_true h)
      exact heven.zpow_nonneg _
  | unary f x =>
    cases f with
    | abs =>
      obtain ⟨-, hq⟩ := Expr.eval_unary_eq_some_iff.mp hv.eval_eq
      rw [← Option.some.inj hq]
      exact abs_nonneg _
    | _ => cases h
  | _ => cases h

/-- Expressions that are all found to be non-negative have non-negative values. -/
theorem values_nonneg_of_areNonnegative (es : List Expr) (h : areNonnegative es = true)
    (hv : ∀ e ∈ es, e.HasValue v) : ∀ e ∈ es, 0 ≤ e.value v := by
  cases es with
  | nil => simp
  | cons e es =>
    rw [areNonnegative, Bool.and_eq_true] at h
    obtain ⟨h1, h2⟩ := List.forall_mem_cons.mp hv
    exact List.forall_mem_cons.mpr
      ⟨value_nonneg_of_isNonnegative e h.1 h1, values_nonneg_of_areNonnegative es h.2 h2⟩
end

/-- The absolute value, as it stands, of what has a value. -/
theorem yields_unary_abs (hv : x.HasValue v) : Yields v (.ok (.unary .abs x)) |x.value v| := by
  have heval : (Expr.unary .abs x).eval v = some |x.value v| :=
    Expr.eval_unary_eq_some_iff.mpr ⟨hv, rfl⟩
  exact ⟨_, rfl, Expr.eval_eq_some_iff.mp heval⟩

/-- The absolute value of a settled expression with a value. -/
theorem abs_sound (hx : x.IsSettled) (hv : x.HasValue v) : Yields v (abs x) |x.value v| := by
  cases hn : x.isNum with
  | true =>
    obtain ⟨q, rfl⟩ := Expr.exists_eq_num hn
    exact ⟨_, rfl, rfl, rat_abs_eq q⟩
  | false =>
    cases hp : isNonnegative x with
    | true =>
      have hpos := value_nonneg_of_isNonnegative x hp hv
      exact ⟨x, abs_of_isNonnegative hn hp, hv, (abs_of_nonneg hpos).symm⟩
    | false =>
      obtain ⟨c, rest, hs, hrest⟩ := splitCoefficient_spec hx hn
      rw [abs_eq hn hp hs]
      by_cases h1 : c = 1
      · rw [if_pos h1]
        exact yields_unary_abs hv
      · rw [if_neg h1]
        obtain ⟨hm, -, hxt⟩ := hrest h1
        have hv := (ignoresCoefficients_hasValue v).rest hv (congrArg Prod.snd hs)
        rw [hxt, value_term hm hv]
        -- The magnitude of the coefficient comes in front, and the rest under the bars.
        have habs : (absRest rest).HasValue v ∧ (absRest rest).value v = |rest.value v| := by
          unfold absRest
          split_ifs with hp
          · exact ⟨hv, (abs_of_nonneg (value_nonneg_of_isNonnegative rest hp hv)).symm⟩
          · obtain ⟨r, hr, h⟩ := yields_unary_abs hv
            rwa [← Except.ok.inj hr] at h
        have hfs : ∀ f ∈ [num c.abs, absRest rest], f.IsSettled ∧ f.HasValue v := by
          simpa using ⟨⟨Expr.settled_num _, Expr.hasValue_num _⟩, settled_absRest hm, habs.1⟩
        simpa [habs.2, rat_abs_eq, abs_mul] using product_sound hfs

/-! ## Remainders -/

/-- The remainder of settled expressions with values, the divisor not being zero. -/
theorem mod_sound (hx : x.IsSettled) (hd : d.IsSettled) (hxv : x.HasValue v) (hdv : d.HasValue v)
    (h0 : d.value v ≠ 0) :
    Yields v (mod x d) (x.value v - d.value v * ⌊x.value v / d.value v⌋) := by
  have hdz : ¬ d.isZero = true := by
    intro hz
    cases d with
    | num q => exact h0 (by simpa [Expr.isZero] using hz)
    | _ => cases hz
  have stands : Yields v (.ok (.mod x d)) (x.value v - d.value v * ⌊x.value v / d.value v⌋) := by
    have heval := Expr.eval_mod_eq_some_iff.mpr ⟨hxv, hdv, h0, rfl⟩
    exact ⟨_, rfl, Expr.eval_eq_some_iff.mp heval⟩
  -- Zero, and the divisor itself, leave no remainder.
  have folds : (x.isZero || x.same d) = true →
      x.value v - d.value v * ⌊x.value v / d.value v⌋ = 0 := by
    intro h
    rcases (Bool.or_eq_true _ _).mp h with h | h
    · cases x with
      | num q =>
        have hq : q = 0 := by simpa [Expr.isZero] using h
        simp [hq]
      | _ => cases h
    · rw [(hx.same_iff_eq hd).mp h, div_self h0]
      simp
  unfold mod
  rw [if_neg hdz]
  split
  · exact ⟨_, rfl, rfl, rfl⟩
  · split_ifs with h
    · rw [folds h]
      exact ⟨_, rfl, rfl, rfl⟩
    · exact stands

/-! ## Functions of one operand -/

/-- A rational function of a settled expression with a value. -/
theorem unary_sound {f : UnaryFunction} {q : Rat} (hx : x.IsSettled) (hv : x.HasValue v)
    (h : Expr.unaryValue f (x.value v) = some q) : Yields v (unary f x) q := by
  cases f with
  | neg =>
    have hfs : ∀ f ∈ [num (-1), x], f.IsSettled ∧ f.HasValue v := by
      simpa using ⟨⟨Expr.settled_num _, Expr.hasValue_num _⟩, hx, hv⟩
    rw [← Option.some.inj h]
    show Yields v (product [num (-1), x]) (-x.value v)
    simpa using product_sound hfs
  | recip =>
    obtain ⟨hk, rfl⟩ := Expr.powerValue_eq_some_iff.mp h
    exact power_sound hx hv hk
  | abs =>
    rw [← Option.some.inj h]
    exact abs_sound hx hv
  | square =>
    obtain ⟨hk, rfl⟩ := Expr.powerValue_eq_some_iff.mp h
    exact power_sound hx hv hk
  | sqrt => cases h
  | ln => cases h

/-! ## Numbers -/

/-- An integer power of a number exists only where it has a value, and is a number. -/
theorem power_num_eq_ok {q : Rat} {k : Int} (h : power (num q) (num k) = .ok r) :
    (q = 0 → 0 < k) ∧ r.isNum = true := by
  have hpos : q = 0 → 0 < k := by
    rintro rfl
    -- Zero to a power that is not positive is refused.
    rcases lt_trichotomy k 0 with hk | hk | hk
    · have hz : (num (k : Rat)).isZero = false := by simpa [Expr.isZero] using hk.ne
      have ho : (num (k : Rat)).isOne = false := by
        have : (k : Rat) ≠ 1 := by exact_mod_cast (hk.trans Int.one_pos).ne
        simpa [Expr.isOne] using this
      rw [power_eq, hz, ho] at h
      simp only [Bool.false_eq_true, if_false] at h
      rw [numberPower_zero, if_pos (by exact_mod_cast hk)] at h
      cases h
    · rw [power_eq, if_pos (by simp [Expr.isZero, hk]), if_pos (by simp [Expr.isZero])] at h
      cases h
    · exact hk
  refine ⟨hpos, ?_⟩
  cases raised_of_power_eq_ok h with
  | zero _ _ hr =>
    rw [hr]
    rfl
  | one _ _ hr =>
    rw [hr]
    rfl
  | number _ _ p hp hr =>
    cases hp
    rw [numberPower_int hpos] at hr
    rw [← Except.ok.inj hr]
    rfl
  | inner _ _ b a x hb => cases hb
  | factors _ _ fs rs hb => cases hb
  | stays _ _ hn => cases hn

/-- A rational function of a number exists only where it has a value, and is a number. -/
theorem unary_num_eq_ok {f : UnaryFunction} {q : Rat}
    (hf : f = .neg ∨ f = .recip ∨ f = .square ∨ f = .abs) (h : unary f (num q) = .ok r) :
    (Expr.unaryValue f q).isSome = true ∧ r.isNum = true := by
  have power_isSome {k : Int} (hk : q = 0 → 0 < k) : (Expr.powerValue q k).isSome = true := by
    rw [Expr.powerValue_eq_some_iff.mpr ⟨hk, rfl⟩]
    rfl
  rcases hf with rfl | rfl | rfl | rfl
  · exact ⟨rfl, (productBound_of_eq_ok h).isNum (by simp [Expr.isNum])⟩
  · obtain ⟨h1, h2⟩ := power_num_eq_ok (k := -1) h
    exact ⟨power_isSome h1, h2⟩
  · obtain ⟨h1, h2⟩ := power_num_eq_ok (k := 2) h
    exact ⟨power_isSome h1, h2⟩
  · rw [← Except.ok.inj h]
    exact ⟨rfl, rfl⟩

end Canonical

namespace Expr

open StackAlgebra.Canonical (Yields exists_forall₂)

variable {v : Valuation} {e r : Expr} {q : Rat}

/-- The canonical form of an expression with a value exists and has that value. -/
theorem HasValue.simplify (h : e.HasValue v) : Yields v e.simplify (e.value v) := by
  induction e using induction_on_children with
  | step e ih =>
    have child {c : Expr} (hc : c ∈ e.children) : Yields v c.simplify (c.value v) :=
      ih c hc (h.child c hc)
    have all {es : List Expr} (hes : ∀ x ∈ es, x ∈ e.children) :
        ∃ rs, List.Forall₂ (fun e r => e.simplify = .ok r) es rs ∧
          (∀ r ∈ rs, r.IsSettled ∧ r.HasValue v) ∧ rs.map (value v) = es.map (value v) := by
      obtain ⟨rs, h1, h2, h3⟩ := exists_forall₂ fun x hx => child (hes x hx)
      exact ⟨rs, h1, fun r hr => ⟨settled_of_forall₂ h1 r hr, h2 r hr⟩, h3⟩
    cases e with
    | num q => exact ⟨_, rfl, h, rfl⟩
    | const c => exact ⟨_, rfl, h, rfl⟩
    | var x => exact ⟨_, rfl, h, rfl⟩
    | sum ts =>
      obtain ⟨rs, hrs, hs, hval⟩ := all fun x (hx : x ∈ ts) => hx
      obtain ⟨h1, h2⟩ := Canonical.sum_sound hs
      refine ⟨_, simplify_eq_ok_iff.mpr (.sum hrs h1.isMeasured.hasOrder), h1, ?_⟩
      rw [h2, hval, value_sum (hasValue_sum_iff.mp h)]
    | product fs =>
      obtain ⟨rs, hrs, hs, hval⟩ := all fun x (hx : x ∈ fs) => hx
      obtain ⟨r, hr, h1, h2⟩ := Canonical.product_sound hs
      refine ⟨r, simplify_eq_ok_iff.mpr (.product hrs hr), h1, ?_⟩
      rw [h2, hval, value_product (hasValue_product_iff.mp h)]
    | power b a =>
      obtain ⟨k, rfl, hb, hk, hq⟩ := eval_power_eq_some_iff.mp h.eval_eq
      obtain ⟨b', hb', hbv, hbq⟩ := child (c := b) (by simp)
      obtain ⟨r, hr, h1, h2⟩ := Canonical.power_sound (settled_simplify hb') hbv (by rwa [hbq])
      refine ⟨r, simplify_eq_ok_iff.mpr (.power hb' rfl hr), h1, ?_⟩
      rw [h2, hbq, hq]
    | unary f x =>
      obtain ⟨hx, hq⟩ := eval_unary_eq_some_iff.mp h.eval_eq
      obtain ⟨x', hx', hxv, hxq⟩ := child (c := x) (by simp)
      obtain ⟨r, hr, h1, h2⟩ := Canonical.unary_sound (settled_simplify hx') hxv (by rwa [hxq])
      exact ⟨r, simplify_eq_ok_iff.mpr (.unary hx' hr), h1, h2⟩
    | mod x d =>
      obtain ⟨hx, hd, h0, hq⟩ := eval_mod_eq_some_iff.mp h.eval_eq
      obtain ⟨x', hx', hxv, hxq⟩ := child (c := x) (by simp)
      obtain ⟨d', hd', hdv, hdq⟩ := child (c := d) (by simp)
      obtain ⟨r, hr, h1, h2⟩ :=
        Canonical.mod_sound (settled_simplify hx') (settled_simplify hd') hxv hdv (by rwa [hdq])
      refine ⟨r, simplify_eq_ok_iff.mpr (.mod hx' hd' hr), h1, ?_⟩
      rw [h2, hxq, hdq, hq]
    | log _ _ | angle _ _ _ => cases h

/-- A canonical form of a rational expression without variables and constants is a number, and there
is one only if the expression has a value. -/
theorem closed_spec (he : e.IsRational) (hc : e.IsClosed) (h : e.simplify = .ok r) :
    e.HasValue v ∧ r.isNum = true := by
  induction e using induction_on_children generalizing r with
  | step e ih =>
    -- By induction, the canonical forms of the children are their values.
    have child {c c' : Expr} (hcc : c ∈ e.children) (h : c.simplify = .ok c') :
        c.HasValue v ∧ c' = num (c.value v) := by
      obtain ⟨hv, hn⟩ := ih c hcc (he.child hcc) (hc.child hcc) h
      obtain ⟨s, hs, -, hq⟩ := hv.simplify
      rw [h] at hs
      obtain rfl := Except.ok.inj hs
      obtain ⟨q, rfl⟩ := exists_eq_num hn
      refine ⟨hv, ?_⟩
      rw [← hq, value_num]
    have all {es rs : List Expr} (hes : ∀ x ∈ es, x ∈ e.children)
        (h : List.Forall₂ (fun e r => e.simplify = .ok r) es rs) :
        (∀ x ∈ es, x.HasValue v) ∧ ∀ r ∈ rs, r.isNum = true := by
      induction h with
      | nil => simp
      | @cons x r xs rs hx _ ih =>
        obtain ⟨h1, h2⟩ := ih fun y hy => hes y (List.mem_cons_of_mem _ hy)
        obtain ⟨h3, h4⟩ := child (hes x List.mem_cons_self) hx
        exact ⟨List.forall_mem_cons.mpr ⟨h3, h1⟩, List.forall_mem_cons.mpr ⟨by rw [h4]; rfl, h2⟩⟩
    cases simplify_eq_ok_iff.mp h with
    | num q => exact ⟨rfl, rfl⟩
    | const c => exact hc.here.elim
    | var x => exact hc.here.elim
    | sum hrs ho =>
      obtain ⟨h1, h2⟩ := all (fun _ hx => hx) hrs
      exact ⟨hasValue_sum_iff.mpr h1, Canonical.isNum_sum h2⟩
    | product hrs hr =>
      obtain ⟨h1, h2⟩ := all (fun _ hx => hx) hrs
      exact ⟨hasValue_product_iff.mpr h1, (Canonical.productBound_of_eq_ok hr).isNum h2⟩
    | @power b a b' a' r hb ha hr =>
      obtain ⟨h1, rfl⟩ := child (by simp) hb
      have hi : a.isInteger = true := he.here
      cases a with
      | num p =>
        have hp : ((p.num : Int) : Rat) = p :=
          Rat.coe_int_num_of_den_eq_one (by simpa [isInteger] using hi)
        rw [← Except.ok.inj ha, ← hp] at hr
        obtain ⟨h2, h3⟩ := Canonical.power_num_eq_ok hr
        have heval := eval_power_eq_some_iff.mpr ⟨p.num, rfl, h1, h2, rfl⟩
        rw [hp] at heval
        exact ⟨(eval_eq_some_iff.mp heval).1, h3⟩
      | _ => cases hi
    | @unary f x x' r hx hr =>
      obtain ⟨h1, rfl⟩ := child (by simp) hx
      obtain ⟨h2, h3⟩ := Canonical.unary_num_eq_ok he.here hr
      obtain ⟨q, hq⟩ := Option.isSome_iff_exists.mp h2
      exact ⟨(eval_eq_some_iff.mp (eval_unary_eq_some_iff.mpr ⟨h1, hq⟩)).1, h3⟩
    | @mod x d x' d' r hx hd hr =>
      obtain ⟨h1, rfl⟩ := child (by simp) hx
      obtain ⟨h2, rfl⟩ := child (by simp) hd
      unfold Canonical.mod at hr
      split_ifs at hr with h0
      rw [← Except.ok.inj hr]
      have hne : d.value v ≠ 0 := by simpa [isZero] using h0
      exact ⟨(eval_eq_some_iff.mp (eval_mod_eq_some_iff.mpr ⟨h1, h2, hne, rfl⟩)).1, rfl⟩
    | log _ _ _ => exact he.here.elim
    | angle _ _ => exact he.here.elim

/-- Where a rational expression has a value, its canonical form exists and has that value. Without
variables and constants, its canonical form is its value, and there is none exactly if it has no
value. -/
theorem simplify_sound (he : e.IsRational) :
    (∀ v q, e.eval v = some q → ∃ r, e.simplify = .ok r ∧ r.eval v = some q) ∧
      (e.IsClosed → ∀ v, (∀ q, e.simplify = .ok (num q) ↔ e.eval v = some q) ∧
        ((∃ ε, e.simplify = .error ε) ↔ e.eval v = none)) := by
  have sound : ∀ v q, e.eval v = some q → ∃ r, e.simplify = .ok r ∧ r.eval v = some q := by
    intro v q h
    obtain ⟨hv, rfl⟩ := eval_eq_some_iff.mp h
    obtain ⟨r, hr, hrv, hrq⟩ := hv.simplify
    exact ⟨r, hr, eval_eq_some_iff.mpr ⟨hrv, hrq⟩⟩
  refine ⟨sound, fun hc v => ⟨fun q => ⟨fun h => ?_, fun h => ?_⟩, ?_⟩⟩
  · obtain ⟨hv, -⟩ := closed_spec (v := v) he hc h
    obtain ⟨r, hr, hrq⟩ := sound v _ hv.eval_eq
    rw [h] at hr
    rw [hv.eval_eq, ← hrq, ← Except.ok.inj hr]
    rfl
  · obtain ⟨r, hr, hrq⟩ := sound v q h
    obtain ⟨-, hn⟩ := closed_spec (v := v) he hc hr
    obtain ⟨p, rfl⟩ := exists_eq_num hn
    rw [hr, ← Option.some.inj hrq]
  · constructor
    · rintro ⟨ε, hε⟩
      rw [Option.eq_none_iff_forall_ne_some]
      intro q hq
      obtain ⟨r, hr, -⟩ := sound v q hq
      rw [hε] at hr
      cases hr
    · intro hnone
      cases hs : e.simplify with
      | error ε => exact ⟨ε, rfl⟩
      | ok r =>
        have hv := (closed_spec (v := v) he hc hs).1
        rw [hv.eval_eq] at hnone
        cases hnone

/-- Zero times the reciprocal of zero has no value, and so no canonical form. -/
theorem simplify_sound_zero_mul_recip_zero :
    ∃ ε, (product [num 0, unary .recip (num 0)]).simplify = .error ε := by
  have he : (product [num 0, unary .recip (num 0)]).IsRational := by
    have h0 : Everywhere RationalNode (num 0) := .intro trivial (by simp)
    have h1 : Everywhere RationalNode (unary .recip (num 0)) :=
      .intro (.inr (.inl rfl)) (by simpa using h0)
    exact .intro trivial (by simpa using ⟨h0, h1⟩)
  have hc : (product [num 0, unary .recip (num 0)]).IsClosed := by
    have h0 : Everywhere ClosedNode (num 0) := .intro trivial (by simp)
    have h1 : Everywhere ClosedNode (unary .recip (num 0)) :=
      .intro trivial (by simpa using h0)
    exact .intro trivial (by simpa using ⟨h0, h1⟩)
  obtain ⟨-, herror⟩ := (simplify_sound he).2 hc ⟨fun _ => 1, fun _ => 1, fun _ => one_pos⟩
  exact herror.mpr rfl

end Expr
end StackAlgebra
