import StackAlgebra.Proofs.NormalForm.RationalPower
import StackAlgebra.Proofs.Operator.Division

/-!
# Logarithms of powers

The logarithm of a power folds to the exponent where the power still has the form of one, with the
same base (`log_eq_num_iff`). A whole power of a product has been distributed over the factors, and
one of a power has taken up its exponent. So a logarithm undoes whole powers other than the zeroth
and the first exactly of bases that are neither (`log_pow_eq_iff`).
-/

namespace StackAlgebra

namespace Canonical

open StackAlgebra.Expr (num)

variable {b x : Expr} {q : Rat}

/-- The logarithm to a base that is no number: the exponent that is seen, or the logarithm as it
stands. -/
theorem log_of_not_isNum (hb : b.isNum = false) :
    log x b = checkOperand x >>= fun _ => .ok ((exponentOf? x b).getD (.log x b)) := by
  have hbase : checkBase b = .ok () := by
    cases b with
    | num q => cases hb
    | _ => rfl
  unfold log
  rw [hbase]
  show (checkOperand x >>= fun _ => _) = _
  congr 1
  funext _
  cases exponentOf? x b with
  | some e => rfl
  | none =>
    cases b with
    | num q => cases hb
    | _ => cases x <;> rfl

/-- A power of a base is not the base. -/
theorem same_power_eq_false (hx : (Expr.power b (num q)).IsSettled) (hb : b.IsSettled) :
    (Expr.power b (num q)).same b = false := by
  rw [← Bool.not_eq_true, hx.same_iff_eq hb]
  intro h
  have hsize := congrArg sizeOf h
  simp at hsize
  omega

/-- The exponent to which a settled expression is a power of a base that is no number. -/
theorem exponentOf?_eq_num_iff (hx : x.IsSettled) (hb : b.IsSettled) (hn : b.isNum = false) :
    exponentOf? x b = some (num q) ↔
      x = num 1 ∧ q = 0 ∨ x = b ∧ q = 1 ∨ x = .power b (num q) := by
  constructor
  · intro h
    unfold exponentOf? at h
    split_ifs at h with hone hsame
    · exact .inl ⟨Expr.isOne_iff.mp hone, (Expr.num.inj (Option.some.inj h)).symm⟩
    · exact .inr (.inl ⟨(hx.same_iff_eq hb).mp hsame, (Expr.num.inj (Option.some.inj h)).symm⟩)
    · cases x with
      | power c e =>
        simp only at h
        split_ifs at h with hc
        have hcb := ((Expr.settled_power_iff.mp hx).2.1.same_iff_eq hb).mp hc
        exact .inr (.inr (by rw [hcb, Option.some.inj h]))
      | _ => cases h
  · rintro (⟨rfl, rfl⟩ | ⟨rfl, rfl⟩ | rfl)
    · rfl
    · have hone : ¬ x.isOne = true := by
        rw [Expr.isOne_iff]
        rintro rfl
        cases hn
      simp only [exponentOf?, if_neg hone, Expr.same_self, if_true]
    · simp [exponentOf?, Expr.isOne, same_power_eq_false hx hb]

/-- The logarithm to a base that is no number is a number exactly if the operand is one, the base or
a power of the base by its form, and then it is the exponent. -/
theorem log_eq_num_iff (hx : x.IsSettled) (hb : b.IsSettled) (hn : b.isNum = false) :
    log x b = .ok (num q) ↔ x = num 1 ∧ q = 0 ∨ x = b ∧ q = 1 ∨ x = .power b (num q) := by
  rw [← exponentOf?_eq_num_iff hx hb hn, log_of_not_isNum hn]
  constructor
  · intro h
    obtain ⟨-, -, h⟩ := bind_eq_ok_iff.mp h
    cases he : exponentOf? x b with
    | some e => rw [← Except.ok.inj h, he, Option.getD_some]
    | none =>
      rw [he] at h
      cases h
  · intro h
    have hoperand : checkOperand x = .ok () := by
      rcases (exponentOf?_eq_num_iff hx hb hn).mp h with ⟨rfl, -⟩ | ⟨rfl, -⟩ | rfl
      · rfl
      · cases x with
        | num q => cases hn
        | _ => rfl
      · rfl
    rw [hoperand, h]
    rfl

end Canonical

namespace Operator

open StackAlgebra.Expr (num)

variable {b p : Expr} {k : ℤ} (measure : String)

/-- Raising a canonical form to a whole power and taking the logarithm of that, without the
operators. -/
theorem evaluate_log_pow (hb : b.simplify = .ok b) (hp : Canonical.power b (num k) = .ok p) :
    (do log.evaluate measure [b, ← pow.evaluate measure [b, num k]]) =
      p.simplify >>= fun x => Canonical.log x b := by
  have hpow : pow.evaluate measure [b, num k] = .ok p := (Expr.simplify_power hb rfl).trans hp
  rw [hpow]
  show (p.simplify >>= fun x => b.simplify >>= fun b => Canonical.log x b) = _
  rw [hb]
  rfl

/-- If the logarithm of a whole power is the exponent, the exponent is zero or one, or the base is
neither a power nor a product. -/
theorem of_log_pow (hb : b.simplify = .ok b) (hn : b.isNum = false)
    (h : (do log.evaluate measure [b, ← pow.evaluate measure [b, num k]]) = .ok (num k)) :
    k = 0 ∨ k = 1 ∨ b.isPower = false ∧ b.isProduct = false := by
  have hs := Expr.settled_simplify hb
  obtain ⟨p, hp, -⟩ := Canonical.bind_eq_ok_iff.mp h
  rw [evaluate_log_pow measure hb ((Expr.simplify_power hb rfl).symm.trans hp)] at h
  obtain ⟨x, hx, hlog⟩ := Canonical.bind_eq_ok_iff.mp h
  have hxs := Expr.settled_simplify hx
  rcases (Canonical.log_eq_num_iff hxs hs hn).mp hlog with ⟨-, h0⟩ | ⟨-, h1⟩ | rfl
  · exact .inl (by exact_mod_cast h0)
  · exact .inr (.inl (by exact_mod_cast h1))
  · -- A whole power that stands is no power of a power or of a product.
    obtain ⟨hnormal, -, -⟩ := Expr.settled_power_iff.mp hxs
    have hint : (num (k : Rat)).isInteger = true := by simp [Expr.isInteger]
    exact .inr (.inr ⟨hnormal.not_isPower, hnormal.not_isProduct_of_isInteger hint⟩)

/-- The logarithm of the zeroth power is zero. -/
theorem log_pow_zero (hb : b.simplify = .ok b) (hn : b.isNum = false) :
    (do log.evaluate measure [b, ← pow.evaluate measure [b, num (0 : ℤ)]]) = .ok (num (0 : ℤ)) := by
  have hzero : b.isZero = false := by
    cases b with
    | num q => cases hn
    | _ => rfl
  have hpow : Canonical.power b (num (0 : ℤ)) = .ok (num 1) :=
    Canonical.Raised.eq_ok (.zero (by simp [Expr.isZero]) hzero rfl)
  rw [evaluate_log_pow measure hb hpow]
  refine (Canonical.log_eq_num_iff (Expr.settled_num 1) (Expr.settled_simplify hb) hn).mpr
    (.inl ⟨rfl, ?_⟩)
  exact Int.cast_zero

/-- The logarithm of the first power is one. -/
theorem log_pow_one (hb : b.simplify = .ok b) (hn : b.isNum = false) :
    (do log.evaluate measure [b, ← pow.evaluate measure [b, num (1 : ℤ)]]) = .ok (num (1 : ℤ)) := by
  have hs := Expr.settled_simplify hb
  have hpow : Canonical.power b (num (1 : ℤ)) = .ok b :=
    Canonical.Raised.eq_ok (.one (by simp [Expr.isZero]) (by simp [Expr.isOne]) rfl)
  rw [evaluate_log_pow measure hb hpow, hb]
  exact (Canonical.log_eq_num_iff hs hs hn).mpr (.inr (.inl ⟨rfl, Int.cast_one⟩))

/-- The logarithm of any other power is the exponent if the power stands. -/
theorem log_pow_of_stands (hb : b.simplify = .ok b) (hn : b.isNum = false) (hp : b.isPower = false)
    (hf : b.isProduct = false) (h0 : k ≠ 0) (h1 : k ≠ 1) :
    (do log.evaluate measure [b, ← pow.evaluate measure [b, num k]]) = .ok (num k) := by
  have hs := Expr.settled_simplify hb
  have hd := (Expr.simplify_eq_self_iff hs).mp hb
  have hzero : (num (k : Rat)).isZero = false := by simpa [Expr.isZero] using h0
  have hone : (num (k : Rat)).isOne = false := by simpa [Expr.isOne] using h1
  have hpower : ∀ d a, b ≠ .power d a := by
    rintro d a rfl
    cases hp
  have hproduct : b.isProduct = true → (num (k : Rat)).isInteger = false := by simp [hf]
  have hps := Canonical.settled_power_of_stays hs (Expr.settled_num k) hzero hone hn hpower hproduct
  have hpd : (Expr.power b (num k)).HasDistinctBases :=
    Expr.Everywhere.iff_children.mpr
      ⟨trivial, Expr.Everywhere.pair hd (Expr.isStable_num k).distinct⟩
  rw [evaluate_log_pow measure hb (Canonical.power_fixed hps), Expr.simplify_fixed hps hpd]
  exact (Canonical.log_eq_num_iff hps hs hn).mpr (.inr (.inr rfl))

/-- The logarithm of a whole power of a canonical form in whose products the bases are different,
and which is no number, is the exponent exactly if the exponent is zero or one or the base is
neither a power nor a product. -/
theorem log_pow_eq_iff {e : Expr} (he : e.simplify = .ok b) (hd : b.HasDistinctBases)
    (hn : b.isNum = false) (k : ℤ) :
    (do log.evaluate measure [b, ← pow.evaluate measure [b, num k]]) = .ok (num k) ↔
      k = 0 ∨ k = 1 ∨ b.isPower = false ∧ b.isProduct = false := by
  have hb := Expr.simplify_fixed (Expr.settled_simplify he) hd
  refine ⟨of_log_pow measure hb hn, fun h => ?_⟩
  by_cases h0 : k = 0
  · exact h0 ▸ log_pow_zero measure hb hn
  by_cases h1 : k = 1
  · exact h1 ▸ log_pow_one measure hb hn
  obtain ⟨hp, hf⟩ := (h.resolve_left h0).resolve_left h1
  exact log_pow_of_stands measure hb hn hp hf h0 h1

/-- The logarithm undoes the power of a sum to minus three. -/
theorem log_pow_sum : ∃ s : Expr, s.simplify = .ok s ∧ s.HasDistinctBases ∧ s.isNum = false ∧
    (do log.evaluate "rad" [s, ← pow.evaluate "rad" [s, num ((-3 : ℤ) : Rat)]]) =
      .ok (num ((-3 : ℤ) : Rat)) := by
  have hs := isStable_sum_var
  refine ⟨_, hs.simplify, hs.distinct, rfl, ?_⟩
  exact (log_pow_eq_iff "rad" hs.simplify hs.distinct rfl (-3)).mpr (.inr (.inr ⟨rfl, rfl⟩))

/-- The square of a product is the product of the squares, which has not the form of a power. -/
theorem log_pow_product_ne :
    (Expr.product [.var "x", .var "y"]).simplify = .ok (.product [.var "x", .var "y"]) ∧
    (Expr.product [.var "x", .var "y"]).isNum = false ∧
    (Expr.product [.var "x", .var "y"]).HasNoZeroBase ∧
    (do log.evaluate "rad" [.product [.var "x", .var "y"],
      ← pow.evaluate "rad" [.product [.var "x", .var "y"], num ((2 : ℤ) : Rat)]]) ≠
        .ok (num ((2 : ℤ) : Rat)) := by
  have hs := isStable_product_var
  refine ⟨hs.simplify, rfl, by simp, fun h => ?_⟩
  rcases of_log_pow "rad" hs.simplify rfl h with h0 | h1 | ⟨-, hf⟩
  · cases h0
  · cases h1
  · cases hf

end Operator
end StackAlgebra
