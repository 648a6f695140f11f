import StackAlgebra.Proofs.NormalForm.RationalPower
import StackAlgebra.Proofs.NormalForm.Scaling
import Mathlib.Data.List.MinMax
import Mathlib.GroupTheory.QuotientGroup.Defs
import Mathlib.Order.WithBot
import Mathlib.Tactic.LinearCombination

/-!
# The sign of a power

A power of a power takes the product of the exponents, whatever the sign of the inner base. An even
root of a power need not be positive therefore. What sign it has can be told beforehand: in front of
its numbers, and of its sums whose first coefficient is negative, an expression carries a power of
minus one, and the exponent of that power (`signExponent`) goes along with products and powers up to
multiples of two over odd numbers (`ProductKeepsSign`, `signClass_power`). A power that is a number
is negative exactly if the exponent, times that of the power, is odd over odd
(`neg_iff_of_power_eq_num`).
-/

namespace StackAlgebra

variable {q : Rat}

/-! ## Even over odd -/

/-- Numerator and denominator are not both even. -/
theorem odd_den_of_even_num (h : Even q.num) : Odd q.den := by
  rw [← Nat.not_even_iff_odd]
  intro hden
  have hdvd := Nat.dvd_gcd (Int.natAbs_dvd_natAbs.mpr h.two_dvd) hden.two_dvd
  rw [q.reduced.gcd_eq_one] at hdvd
  exact absurd (Nat.dvd_one.mp hdvd) (by decide)

/-- A rational has an even numerator exactly if it is an even number over an odd one. -/
theorem even_num_iff : Even q.num ↔ ∃ m n : ℤ, Odd n ∧ q * n = 2 * m := by
  have hq := Rat.mul_den_eq_num q
  constructor
  · intro h
    have hden : Odd (q.den : ℤ) := by exact_mod_cast odd_den_of_even_num h
    obtain ⟨m, hm⟩ := h
    refine ⟨m, q.den, hden, ?_⟩
    rw [Int.cast_natCast, hq, hm, Int.cast_add, two_mul]
  · rintro ⟨m, n, hn, h⟩
    have hcast : (q.num : Rat) * n = 2 * (m * q.den) := by
      linear_combination (q.den : Rat) * h - n * hq
    have hint : q.num * n = 2 * (m * q.den) := by exact_mod_cast hcast
    have heven : Even (q.num * n) := hint ▸ even_two_mul _
    exact (Int.even_mul.mp heven).resolve_right (Int.not_even_iff_odd.mpr hn)

/-- The rationals with an even numerator in lowest terms. -/
def evens : AddSubgroup Rat where
  carrier := {q | Even q.num}
  zero_mem' := by simp
  add_mem' := by
    intro p q hp hq
    obtain ⟨m, n, hn, hp⟩ := even_num_iff.mp hp
    obtain ⟨k, l, hl, hq⟩ := even_num_iff.mp hq
    refine even_num_iff.mpr ⟨m * l + k * n, n * l, hn.mul hl, ?_⟩
    push_cast
    linear_combination (l : Rat) * hp + (n : Rat) * hq
  neg_mem' := by simp

/-- A rational counts as zero exactly if its numerator is even. -/
theorem mk_eq_zero_iff : (q : Rat ⧸ evens) = 0 ↔ Even q.num :=
  QuotientAddGroup.eq_zero_iff q

/-- A rational counts as one exactly if its numerator and its denominator are odd. -/
theorem mk_eq_one_iff : (q : Rat ⧸ evens) = (1 : Rat) ↔ Odd q.num ∧ Odd q.den := by
  have hq := Rat.mul_den_eq_num q
  rw [← sub_eq_zero, ← QuotientAddGroup.mk_sub, mk_eq_zero_iff, even_num_iff]
  constructor
  · rintro ⟨m, n, hn, h⟩
    have hcast : (q.num : Rat) * n = (2 * m + n) * q.den := by
      linear_combination (q.den : Rat) * h - n * hq
    have hint : q.num * n = (2 * m + n) * q.den := by exact_mod_cast hcast
    have hodd : Odd (2 * m + n) := (even_two_mul m).add_odd hn
    -- Numerator and denominator are even together, and so they are both odd.
    have hiff : Even q.num ↔ Even (q.den : ℤ) := by
      have heven := Int.even_mul (m := q.num) (n := n)
      rw [hint, Int.even_mul] at heven
      simpa [Int.not_even_iff_odd.mpr hn, Int.not_even_iff_odd.mpr hodd] using heven.symm
    have hnum : ¬ Even q.num := by
      intro h
      have hden : Even q.den := by exact_mod_cast hiff.mp h
      exact Nat.not_even_iff_odd.mpr (odd_den_of_even_num h) hden
    exact ⟨Int.not_even_iff_odd.mp hnum,
      by exact_mod_cast Int.not_even_iff_odd.mp (mt hiff.mpr hnum)⟩
  · rintro ⟨hnum, hden⟩
    have hden' : Odd (q.den : ℤ) := by exact_mod_cast hden
    obtain ⟨m, hm⟩ := hnum.sub_odd hden'
    have hcast : (q.num : Rat) - q.den = m + m := by exact_mod_cast hm
    refine ⟨m, q.den, hden', ?_⟩
    rw [Int.cast_natCast]
    linear_combination hq + hcast

/-! ## The first term of a sum -/

namespace Expr

/-- The key of the part of a term beside its coefficient. That of numbers comes before all
others. -/
def restKey (t : Expr) : WithBot Key :=
  t.rest?.map key

/-- The coefficient of the term whose part beside it comes first. -/
def leadingCoefficient (ts : List Expr) : Rat :=
  ((ts.argmin restKey).map fun t => t.splitCoefficient.1).getD 0

/-- Terms are like terms exactly if the keys of their parts beside the coefficients are equal. -/
theorem areLike_iff_restKey_eq {t u : Expr} :
    areLike t.rest? u.rest? = true ↔ t.restKey = u.restKey := by
  unfold restKey
  cases t.rest? with
  | none =>
    cases u.rest? with
    | none => exact iff_of_true rfl rfl
    | some s => exact iff_of_false (by simp [areLike]) nofun
  | some r =>
    cases u.rest? with
    | none => exact iff_of_false (by simp [areLike]) nofun
    | some s => exact same_iff.trans (Option.some_inj (a := r.key)).symm

end Expr

namespace Canonical

open StackAlgebra.Expr
  (num nonNumbers coefficientOf coordinates rest? restKey leadingCoefficient areLike)
open scoped List

variable {b e r t : Expr} {fs ts us ms : List Expr} {c : Rat}

/-- Where a settled sum has a coordinate it has a term. -/
theorem exists_term_of_coordinates (hs : (Expr.sum ts).IsSettled) {k : Option Expr}
    (hk : (Expr.sum ts).coordinates k ≠ 0) : ∃ t ∈ ts, areLike (rest? t) k = true := by
  have hterms := (areIndependent_of_settled hs).terms
  by_contra hn
  push Not at hn
  refine hk (((isLinear_coordinates k).sum hterms fun _ _ => trivial).trans
      (List.sum_eq_zero fun q hq => ?_))
  obtain ⟨u, hu, rfl⟩ := List.mem_map.mp hq
  rw [coordinates_of_not_isSum (hterms u hu).2, if_neg (hn u hu)]

/-- The leading coefficient of a settled sum is that of a term, and no part comes before that of
this term. -/
theorem leadingCoefficient_spec (hs : (Expr.sum ts).IsSettled) :
    ∃ t ∈ ts, leadingCoefficient ts = t.splitCoefficient.1 ∧ ∀ u ∈ ts, restKey t ≤ restKey u := by
  have hne : ts ≠ [] := List.ne_nil_of_length_pos
    (Nat.lt_of_lt_of_le Nat.two_pos (Expr.settled_sum_iff.mp hs).1.two_le)
  obtain ⟨t, ht⟩ : ∃ t, ts.argmin restKey = some t :=
    Option.ne_none_iff_exists'.mp fun h => hne (List.argmin_eq_none.mp h)
  refine ⟨t, List.argmin_mem ht, ?_, fun u hu => List.le_of_mem_argmin hu ht⟩
  rw [leadingCoefficient, ht]
  rfl

/-- In a multiple of a sum the same term comes first, with the multiple of its coefficient. -/
theorem leadingCoefficient_smul (hts : (Expr.sum ts).IsSettled) (hus : (Expr.sum us).IsSettled)
    (hc : c ≠ 0) (h : (Expr.sum us).coordinates = c • (Expr.sum ts).coordinates) :
    leadingCoefficient us = c * leadingCoefficient ts := by
  obtain ⟨t, ht, htc, htmin⟩ := leadingCoefficient_spec hts
  obtain ⟨u, hu, huc, humin⟩ := leadingCoefficient_spec hus
  have hsmul (k : Option Expr) : (Expr.sum us).coordinates k = c * (Expr.sum ts).coordinates k :=
    congrFun h k
  -- Where one of the sums has a term the other has one, so that both begin with the same part.
  have hle : restKey t ≤ restKey u := by
    have hne : (Expr.sum ts).coordinates (rest? u) ≠ 0 := by
      refine right_ne_zero_of_mul (a := c) ?_
      rw [← hsmul, coordinates_rest hus hu]
      exact (areIndependent_of_settled hus).ne_zero u hu
    obtain ⟨v, hv, hlike⟩ := exists_term_of_coordinates hts hne
    exact (htmin v hv).trans_eq (Expr.areLike_iff_restKey_eq.mp hlike)
  have hge : restKey u ≤ restKey t := by
    have hne : (Expr.sum us).coordinates (rest? t) ≠ 0 := by
      rw [hsmul, coordinates_rest hts ht]
      exact mul_ne_zero hc ((areIndependent_of_settled hts).ne_zero t ht)
    obtain ⟨v, hv, hlike⟩ := exists_term_of_coordinates hus hne
    exact (humin v hv).trans_eq (Expr.areLike_iff_restKey_eq.mp hlike)
  have hrest : rest? t = rest? u :=
    rest?_eq_of_areLike ((areIndependent_of_settled hts).terms t ht)
      ((areIndependent_of_settled hus).terms u hu)
      (Expr.areLike_iff_restKey_eq.mpr (le_antisymm hle hge))
  rw [htc, huc, ← coordinates_rest hus hu, ← coordinates_rest hts ht, hsmul, hrest]

end Canonical

/-! ## The exponent of minus one -/

namespace Expr

mutual
/-- The exponent that minus one has in front of an expression. A power takes it up times the
rational part of its exponent. -/
def signExponent : Expr → Rat
  | .num q => if q < 0 then 1 else 0
  | .sum ts => if leadingCoefficient ts < 0 then 1 else 0
  | .product fs => signExponents fs
  | .power b e => b.signExponent * e.coordinates none
  | _ => 0

/-- The exponents that minus one has in front of expressions, added up. -/
def signExponents : List Expr → Rat
  | [] => 0
  | f :: fs => f.signExponent + signExponents fs
end

/-- The exponent of minus one, up to even numbers over odd ones. -/
def signClass (e : Expr) : Rat ⧸ evens :=
  (e.signExponent : Rat ⧸ evens)

/-- The exponents of minus one are summed up. -/
theorem signExponents_eq_sum (fs : List Expr) : signExponents fs = (fs.map signExponent).sum := by
  induction fs with
  | nil => rfl
  | cons f fs ih => rw [signExponents, ih, List.map_cons, List.sum_cons]

/-- The exponents of several expressions add up to that of them all. -/
theorem sum_signClass (fs : List Expr) :
    (fs.map signClass).sum = (((fs.map signExponent).sum : Rat) : Rat ⧸ evens) := by
  rw [← QuotientAddGroup.mk'_apply evens, map_list_sum, List.map_map]
  rfl

/-- The factors of an expression add up to it. -/
theorem sum_signClass_factors (e : Expr) : (e.factors.map signClass).sum = e.signClass := by
  cases e with
  | product fs =>
    rw [factors, sum_signClass, ← signExponents_eq_sum]
    rfl
  | _ => exact add_zero _

/-- The sign of a number. -/
theorem signClass_num (q : Rat) :
    (num q).signClass = ((if q < 0 then 1 else 0 : Rat) : Rat ⧸ evens) := rfl

/-- The signs of numbers multiply. -/
theorem signClass_num_mul {p q : Rat} (hp : p ≠ 0) (hq : q ≠ 0) :
    (num (p * q)).signClass = (num p).signClass + (num q).signClass := by
  have htwo : ((1 + 1 : Rat) : Rat ⧸ evens) = 0 := mk_eq_zero_iff.mpr (by norm_num)
  simp only [signClass_num, ← QuotientAddGroup.mk_add]
  rcases lt_or_gt_of_ne hp with hp | hp <;> rcases lt_or_gt_of_ne hq with hq | hq
  · rw [if_neg (mul_pos_of_neg_of_neg hp hq).not_gt, if_pos hp, if_pos hq, htwo]
    rfl
  · rw [if_pos (mul_neg_of_neg_of_pos hp hq), if_pos hp, if_neg hq.not_gt, add_zero]
  · rw [if_pos (mul_neg_of_pos_of_neg hp hq), if_neg hp.not_gt, if_pos hq, zero_add]
  · rw [if_neg (mul_pos hp hq).not_gt, if_neg hp.not_gt, if_neg hq.not_gt, add_zero]

/-- The sign of a rational power is that of the number, times the exponent. -/
theorem signClass_rationalPower {b e v : Rat} (hb : b ≠ 0) (hreal : ¬ (b < 0 ∧ e.den % 2 = 0))
    (h : Canonical.IsRationalPower b e v) :
    (num v).signClass = (((num b).signExponent * e : Rat) : Rat ⧸ evens) := by
  rw [signClass_num, signExponent]
  rcases lt_or_gt_of_ne hb with hneg | hpos
  · have hiff := h.neg_iff_odd hneg hreal
    rw [if_pos hneg, one_mul]
    by_cases hodd : Odd e.num
    · rw [if_pos (hiff.mpr hodd), mk_eq_one_iff.mpr ⟨hodd, Canonical.odd_of_isReal hreal hneg⟩]
    · rw [if_neg (mt hiff.mp hodd), mk_eq_zero_iff.mpr (Int.not_odd_iff_even.mp hodd)]
      rfl
  · rw [if_neg hpos.not_gt, zero_mul, if_neg (h.pos hpos).not_gt]

/-- The coefficient and the other factors add up to all of them. -/
theorem signClass_coefficientOf {fs : List Expr} (h : coefficientOf fs ≠ 0) :
    (num (coefficientOf fs)).signClass + ((nonNumbers fs).map signClass).sum =
      (fs.map signClass).sum := by
  induction fs with
  | nil => exact add_zero _
  | cons f fs ih =>
    cases hn : f.isNum with
    | true =>
      obtain ⟨q, rfl⟩ := exists_eq_num hn
      have hq : q ≠ 0 := left_ne_zero_of_mul h
      have hfs : coefficientOf fs ≠ 0 := right_ne_zero_of_mul h
      rw [nonNumbers_num_cons, coefficientOf, signClass_num_mul hq hfs, add_assoc, ih hfs]
      rfl
    | false =>
      rw [Canonical.coefficientOf_cons hn] at h ⊢
      rw [nonNumbers_cons hn, List.map_cons, List.sum_cons, List.map_cons, List.sum_cons, ← ih h]
      abel

/-- A factor has the exponent of its base, times the rational part of its own exponent. -/
theorem signClass_splitPower {f : Expr} (hn : f.isNum = false) (hp : f.isProduct = false) :
    f.signClass = ((f.base.signExponent * f.exponent.coordinates none : Rat) : Rat ⧸ evens) := by
  have hone : (num 1).coordinates none = 1 := Canonical.coordinates_num 1
  cases f with
  | power b e => rfl
  | num q => cases hn
  | product fs => cases hp
  | _ =>
    show _ = ((signExponent _ * (num 1).coordinates none : Rat) : Rat ⧸ evens)
    rw [hone, mul_one]
    rfl

end Expr

namespace Canonical

open StackAlgebra.Expr (num nonNumbers coefficientOf coordinates signClass signClass_coefficientOf
  signClass_num_mul sum_signClass_factors)
open scoped List

variable {b e m r : Expr} {fs ms : List Expr} {gs : List (Expr × List Expr)} {c q : Rat}

/-! ## Products -/

/-- What a product of expressions with stable bases comes to has the exponents of minus one of all
factors, added up. -/
def ProductKeepsSign (fs : List Expr) : Prop :=
  (∀ f ∈ fs, f.IsSettled ∧ HasStableBases f) → ∀ r, product fs = .ok r → r ≠ num 0 →
    r.signClass = (fs.map signClass).sum

/-- What a power of a stable base, other than a power to an exponent that is no number, comes to has
the exponent of minus one of the base, times that of the power. -/
def PowerKeepsSign (b e : Expr) : Prop :=
  b.IsStable → e.IsSettled → b.isPower = false ∨ e.isNum = true → ∀ r, power b e = .ok r →
    r ≠ num 0 → r.signClass = ((b.signExponent * e.coordinates none : Rat) : Rat ⧸ evens)

/-- There is no zero among factors whose coefficient is not zero. -/
theorem ne_zero_of_coefficient_ne_zero (h : coefficientOf ms ≠ 0) : ∀ m ∈ ms, m ≠ num 0 := by
  rintro m hm rfl
  obtain ⟨l, k, rfl⟩ := List.append_of_mem hm
  rw [coefficientOf_append, coefficientOf, zero_mul, mul_zero] at h
  exact h rfl

/-- There is no zero among the factors of a product other than zero. -/
theorem ne_zero_of_product_ne_zero (h : product fs = .ok r) (hr : r ≠ num 0) :
    ∀ f ∈ fs, f ≠ num 0 := by
  rcases merged_of_product_eq_ok h with ⟨-, rfl⟩ | ⟨hc, -⟩
  · exact absurd rfl hr
  · rintro f hf rfl
    refine ne_zero_of_coefficient_ne_zero hc (num 0) (mem_opened.mpr ?_) rfl
    rw [multiplicandsOf_eq_flatMap]
    exact List.mem_flatMap.mpr ⟨num 0, hf, List.mem_singleton.mpr rfl⟩

/-- Values that agree pair by pair add up alike. -/
theorem sum_map_eq_of_forall₂ {α β M : Type} [AddMonoid M]
    {R : α → β → Prop} {l : List α} {k : List β} {v : α → M} {w : β → M} (h : List.Forall₂ R l k)
    (hv : ∀ a ∈ l, ∀ b ∈ k, R a b → w b = v a) :
    (k.map w).sum = (l.map v).sum := by
  induction h with
  | nil => rfl
  | @cons a b l k hab _ ih =>
    rw [List.map_cons, List.sum_cons, List.map_cons, List.sum_cons,
      hv a List.mem_cons_self b List.mem_cons_self hab,
      ih fun a ha b hb => hv a (List.mem_cons_of_mem _ ha) b (List.mem_cons_of_mem _ hb)]

/-- A number distributed over a sum, or put to the other factors, adds its sign to theirs. -/
theorem signClass_distribute (hn : ∀ f ∈ fs, f.isNum = false) (hp : ∀ f ∈ fs, f.isProduct = false)
    (hs : ∀ f ∈ fs, HasStableBases f) (h0 : q ≠ 0) (h : distribute q fs = .ok r) :
    r.signClass = (num q).signClass + (fs.map signClass).sum := by
  cases hspread : spread? q fs with
  | none =>
    rw [distribute, hspread] at h
    obtain ⟨rfl, -⟩ := inOrder_eq_ok_iff.mp h
    obtain ⟨hc, hperm⟩ := factors_productOf hn hp h0
    rw [← sum_signClass_factors, ← signClass_coefficientOf (hc.trans_ne h0), hc,
      (hperm.map _).sum_eq]
  | some ts =>
    -- The first term stays the first, with the multiple of its coefficient.
    obtain ⟨rfl, -, -⟩ := spread?_eq_some_iff.mp hspread
    have hsum : (Expr.sum ts).IsStable := hs _ List.mem_cons_self _ (List.mem_singleton.mpr rfl)
    obtain ⟨us, hx, hxs, hxc⟩ := exists_multiple_sum hsum h0
    rw [product_num_sum hsum h0, h] at hx
    obtain rfl := Except.ok.inj hx
    have hlead := leadingCoefficient_smul hsum.settled hxs.settled h0 hxc
    obtain ⟨t, ht, htc, -⟩ := leadingCoefficient_spec hsum.settled
    have hne := (areIndependent_of_settled hsum.settled).ne_zero t ht
    rw [← htc] at hne
    rw [List.map_singleton, List.sum_singleton]
    show (num (Expr.leadingCoefficient us)).signClass =
        _ + (num (Expr.leadingCoefficient ts)).signClass
    rw [hlead, signClass_num_mul h0 hne]

/-- Merged bases with the coefficient zero multiply to zero. -/
theorem multiply_zero (h : c * coefficientOf ms = 0) : multiply c gs ms = .ok (num 0) := by
  unfold multiply
  rw [h, distribute_zero]
  split_ifs
  · rw [product_eq, if_pos]
    rw [opened_append_num, coefficientOf, zero_mul]
  · rfl

/-- A merged base has the exponents of minus one that its powers have, if the powers to several
exponents do. -/
theorem signClass_merged_of_calls (h : AreFactors fs) (hb : ∀ g ∈ nonNumbers fs, g.base.IsStable)
    (calls : ∀ b es, (b, es) ∈ powersOf fs → 2 ≤ es.length → PowerKeepsSign b (sum es))
    {g : Expr × List Expr} (hg : g ∈ powersOf fs) (hm : mergePower g = .ok m) (h0 : m ≠ num 0) :
    m.signClass =
      (g.2.map fun e => ((g.1.signExponent * e.coordinates none : Rat) : Rat ⧸ evens)).sum := by
  obtain ⟨x, hx⟩ := List.exists_mem_of_length_pos (length_mem_group g hg)
  obtain ⟨f, hf, heq⟩ := exists_factor h hg hx
  have hfs := h f (Expr.mem_of_mem_nonNumbers hf)
  have hbase : f.base = g.1 := by rw [Expr.base, heq]
  rcases mergePower_eq_ok h hg hm with ⟨-, hlen⟩ | ⟨hlen, ho, hpow⟩
  · -- A base with one exponent stays the factor that it came from.
    obtain ⟨b, es⟩ := g
    obtain ⟨e, rfl⟩ := List.length_eq_one_iff.mp hlen
    obtain rfl := List.mem_singleton.mp hx
    have hmf : f = m := by
      have hbare := hfs.1.bare_splitPower
      rw [heq] at hbare
      exact hbare.symm.trans (Except.ok.inj hm)
    have hexp : f.exponent = x := by rw [Expr.exponent, heq]
    rw [List.map_singleton, List.sum_singleton, ← hmf, ← hbase, ← hexp]
    exact Expr.signClass_splitPower (Expr.isNum_of_mem_nonNumbers hf) hfs.2
  · have hpower : g.1.isPower = false := hbase ▸ not_isPower_base hfs.1
    have hes := (settled_group h hg).2
    rw [calls g.1 g.2 hg hlen (hbase ▸ hb f hf) (settled_sum hes ho) (.inl hpower) m hpow h0,
      coordinates_sum hes, ← List.sum_map_mul_left, ← QuotientAddGroup.mk'_apply evens,
      map_list_sum, List.map_map]
    rfl

/-- Merged bases have the exponents of minus one of the factors that they are merged from. -/
theorem sum_signClass_merged (h : AreFactors fs)
    (hmerged : ∀ g ∈ powersOf fs, ∀ m, mergePower g = .ok m → m ≠ num 0 → m.signClass =
      (g.2.map fun e => ((g.1.signExponent * e.coordinates none : Rat) : Rat ⧸ evens)).sum)
    (hms : List.Forall₂ (fun g m => mergePower g = .ok m) (powersOf fs) ms)
    (h0 : ∀ m ∈ ms, m ≠ num 0) :
    (ms.map signClass).sum = ((nonNumbers fs).map signClass).sum := by
  have hgroups := sum_group (hasKeyedLabels_powers h) fun x : Expr × Expr =>
    ((x.1.signExponent * x.2.coordinates none : Rat) : Rat ⧸ evens)
  rw [List.map_map, ← powersOf] at hgroups
  have hfactors : (nonNumbers fs).map signClass = (nonNumbers fs).map
      ((fun x => ((x.1.signExponent * x.2.coordinates none : Rat) : Rat ⧸ evens)) ∘
        Expr.splitPower) :=
    List.map_congr_left fun f hf => Expr.signClass_splitPower (Expr.isNum_of_mem_nonNumbers hf)
      (h f (Expr.mem_of_mem_nonNumbers hf)).2
  rw [hfactors, ← hgroups]
  exact sum_map_eq_of_forall₂ hms fun g hg m hm hgm => hmerged g hg m hgm (h0 m hm)

/-- A product has the exponents of minus one of its factors if its calls do. -/
theorem productKeepsSign_of_calls (calls : ProductCalls ProductKeepsSign PowerKeepsSign fs) :
    ProductKeepsSign fs := by
  intro hfs r h hr0
  have hsettled : ∀ f ∈ fs, f.IsSettled := fun f hf => (hfs f hf).1
  have hos := areFactors_opened hsettled
  have hbases := stable_bases_opened hfs
  rcases merged_of_product_eq_ok h with ⟨-, rfl⟩ | ⟨hc, ms, hms, hr⟩
  · exact absurd rfl hr0
  have hq : coefficientOf (opened fs) * coefficientOf ms ≠ 0 := by
    intro hq
    rw [multiply_zero hq] at hr
    exact hr0 (Except.ok.inj hr).symm
  have hcms := right_ne_zero_of_mul hq
  have hnon : ∀ m ∈ nonNumbers ms, m.IsSettled ∧ HasStableBases m := fun m hm =>
    have hmem := Expr.mem_of_mem_nonNumbers hm
    ⟨settled_merged hos hms m hmem, hasStableBases_merged hos hbases hms m hmem⟩
  -- All factors have the sign of the number in front and the signs of the merged bases.
  have htotal : (num (coefficientOf (opened fs) * coefficientOf ms)).signClass +
      ((nonNumbers ms).map signClass).sum = (fs.map signClass).sum := by
    rw [signClass_num_mul hc hcms, add_assoc, signClass_coefficientOf hcms,
      sum_signClass_merged hos
      (fun g hg m hm => signClass_merged_of_calls hos hbases calls.merged hg hm) hms
        (ne_zero_of_coefficient_ne_zero hcms), signClass_coefficientOf hc,
      ((opened_perm_factors hsettled).map signClass).sum_eq, List.map_flatMap, List.flatMap_def,
      List.sum_flatten, List.map_map]
    exact congrArg List.sum (List.map_congr_left fun f _ => sum_signClass_factors f)
  rw [← htotal]
  unfold multiply at hr
  split_ifs at hr with hexp
  · have hagain :=
      calls.again ms hms hexp.1 _ (List.forall_mem_append.mpr ⟨hnon, List.forall_mem_singleton.mpr
      ⟨Expr.settled_num _, hasStableBases_of_isStable (Expr.isStable_num _)⟩⟩) r hr hr0
    rw [hagain, List.map_append, List.sum_append, List.map_singleton, List.sum_singleton, add_comm]
  · exact signClass_distribute (fun m => Expr.isNum_of_mem_nonNumbers)
      (not_isProduct_of_not_expanded hos hms hexp) (fun m hm => (hnon m hm).2) hq hr

/-! ## Powers -/

/-- A root and the rational before it have the sign of the power that they are made from. -/
theorem signClass_scaledRoot (hq : q ≠ 0) (f : Rat) :
    (scaledRoot q f).signClass = (((num q).signExponent * f : Rat) : Rat ⧸ evens) := by
  have hroot : (Expr.power (num q) (num (f - f.floor))).signClass =
      (((num q).signExponent * (f - f.floor) : Rat) : Rat ⧸ evens) :=
    congrArg (fun x => (((num q).signExponent * x : Rat) : Rat ⧸ evens)) (coordinates_num _)
  have hwhole : (num (q ^ f.floor)).signClass =
      (((num q).signExponent * f.floor : Rat) : Rat ⧸ evens) := by
    refine Expr.signClass_rationalPower hq ?_ ⟨?_, fun hpos => zpow_pos hpos _⟩
    · rw [Rat.den_intCast]
      rintro ⟨-, h⟩
      cases h
    · rw [Rat.den_intCast, Rat.num_intCast, pow_one]
  unfold scaledRoot
  split_ifs with h0
  · rw [hroot, h0, Int.cast_zero, sub_zero]
  · rw [← sum_signClass_factors, Expr.factors, List.map_cons, List.sum_cons, List.map_singleton,
      List.sum_singleton, hwhole, hroot, ← QuotientAddGroup.mk_add, ← mul_add, add_sub_cancel]

/-- A power of a number has the exponent of minus one of the number, times that of the power. -/
theorem signClass_numberPower (h : numberPower q e = .ok r) (hr0 : r ≠ num 0) :
    r.signClass = (((num q).signExponent * e.coordinates none : Rat) : Rat ⧸ evens) := by
  by_cases h1 : q = 1
  · subst h1
    have hr : num 1 = r := Except.ok.inj h
    have hzero : (num 1).signExponent = 0 := rfl
    rw [← hr, hzero, zero_mul]
    rfl
  cases hn : e.isNum with
  | false =>
    rw [numberPower_of_not_isNum h1 hn] at h
    rw [← Except.ok.inj h]
    rfl
  | true =>
    obtain ⟨f, rfl⟩ := Expr.exists_eq_num hn
    by_cases h0 : q = 0
    · rw [h0, numberPower_zero] at h
      split_ifs at h
      exact absurd (Except.ok.inj h).symm hr0
    have hconst : (num f).coordinates none = f := coordinates_num f
    rw [numberPower_num h0 h1] at h
    have hreal : ¬ (q < 0 ∧ f.den % 2 = 0) := fun hreal => by
      rw [(rationalPower_eq_error_iff _).mpr ⟨rfl, hreal⟩] at h
      cases h
    rw [hconst]
    by_cases hval : ∃ v : Rat, v ^ f.den = q ^ f.num
    · obtain ⟨v, hv⟩ := hval
      obtain ⟨w, hw, hpow⟩ := rationalPower_of_pow_eq h0 hreal (exists_root_of_pow_eq h0 hv)
      obtain rfl := Except.ok.inj (hw.symm.trans h)
      exact Expr.signClass_rationalPower h0 hreal hpow
    · obtain rfl := Except.ok.inj ((rationalPower_eq_scaledRoot h0 hreal hval).symm.trans h)
      exact signClass_scaledRoot h0 f

/-- An exponent times a number has its rational part times the number. -/
theorem coordinates_product_num {a x : Expr} (ha : a.IsStable) (h : product [a, num q] = .ok x) :
    x.coordinates none = a.coordinates none * q := by
  obtain ⟨y, hy, -, hc⟩ := hasCoordinates_product_num ha q
  have hs : ∀ f ∈ [num q, a], f.IsSettled := by simpa using ⟨Expr.settled_num q, ha.settled⟩
  obtain rfl := Except.ok.inj ((product_perm hs (List.Perm.swap _ _ _) hy).symm.trans h)
  rw [hc, Pi.smul_apply, smul_eq_mul, mul_comm]

/-- A power has the exponent of minus one of its base, times its own exponent, if its calls do. -/
theorem powerKeepsSign_of_calls (calls : PowerCalls ProductKeepsSign PowerKeepsSign b e) :
    PowerKeepsSign b e := by
  intro hb he hor r h hr0
  cases raised_of_power_eq_ok h with
  | zero h0 _ hr =>
    obtain rfl := Expr.isZero_iff.mp h0
    have hzero : (num 0).coordinates none = 0 := coordinates_num 0
    rw [hr, hzero, mul_zero]
    rfl
  | one _ h1 hr =>
    obtain rfl := Expr.isOne_iff.mp h1
    have hone : (num 1).coordinates none = 1 := coordinates_num 1
    rw [hr, hone, mul_one]
    rfl
  | number _ _ q hq hr =>
    subst hq
    exact signClass_numberPower hr hr0
  | inner _ _ b' a x hb' hx hr =>
    subst hb'
    have ha : a.IsStable := hb.child (by simp)
    obtain ⟨q, rfl⟩ := Expr.exists_eq_num (hor.resolve_left (by simp [Expr.isPower]))
    have hconst : (num q).coordinates none = q := coordinates_num q
    have hsettled : ∀ y ∈ [a, num q], y.IsSettled := by simpa using ⟨ha.settled, Expr.settled_num q⟩
    have hpower := (Expr.settled_power_iff.mp hb.settled).1.not_isPower
    rw [calls.inner b' a x rfl hx (hb.child (by simp)) (settled_product hsettled hx) (.inl hpower)
      r hr hr0, coordinates_product_num ha hx, hconst, ← mul_assoc]
    rfl
  | factors _ _ fs rs hb' hi hrs hr =>
    subst hb'
    obtain ⟨q, rfl⟩ := Expr.exists_eq_num (Expr.isNum_of_isInteger hi)
    have hconst : (num q).coordinates none = q := coordinates_num q
    have hkeeps : ∀ x ∈ rs, x.IsSettled ∧ HasStableBases x := by
      intro x hx
      obtain ⟨f, hf, hx⟩ := exists_of_mem_forall₂ hrs hx
      exact ⟨settled_power (hb.child hf).settled he hx, hasStableBases_power (hb.child hf) he hx⟩
    have hne := ne_zero_of_product_ne_zero hr hr0
    rw [calls.factors fs rs rfl hi hrs hkeeps r hr hr0,
      sum_map_eq_of_forall₂ hrs fun f hf x hx hfx =>
      calls.factor fs rfl hi f hf (hb.child hf) he (.inr rfl) x hfx (hne x hx), hconst,
        Expr.signExponent,
      Expr.signExponents_eq_sum, ← List.sum_map_mul_right, ← QuotientAddGroup.mk'_apply evens,
        map_list_sum,
      List.map_map]
    rfl
  | stays _ _ _ _ _ hr =>
    rw [hr]
    rfl

/-- A power of a stable expression, other than a power to an exponent that is no number, has the
exponent of minus one of that expression, times its own exponent. -/
theorem signClass_power (hb : b.IsStable) (he : e.IsSettled)
    (hor : b.isPower = false ∨ e.isNum = true) (h : power b e = .ok r) (hr0 : r ≠ num 0) :
    r.signClass = ((b.signExponent * e.coordinates none : Rat) : Rat ⧸ evens) :=
  power_induction (fun _ => productKeepsSign_of_calls)
    (fun _ _ => powerKeepsSign_of_calls) b e hb he hor r h hr0

/-- The sign of a power that is a number other than zero. -/
theorem neg_iff_of_power_eq_num {v x : Rat} (hb : b.IsStable) (h : power b (num x) = .ok (num v))
    (hv : v ≠ 0) :
    v < 0 ↔ Odd (b.signExponent * x).num ∧ Odd (b.signExponent * x).den := by
  have hconst : (num x).coordinates none = x := coordinates_num x
  have hsign :=
    signClass_power hb (Expr.settled_num x) (.inr rfl) h (fun h0 => hv (Expr.num.inj h0))
  rw [hconst, Expr.signClass_num] at hsign
  rw [← mk_eq_one_iff, ← hsign]
  by_cases hneg : v < 0
  · rw [if_pos hneg]
    exact iff_of_true hneg rfl
  · rw [if_neg hneg]
    refine iff_of_false hneg fun h01 => ?_
    obtain ⟨h0, -⟩ := mk_eq_one_iff.mp h01
    exact absurd h0 (by decide)

end Canonical
end StackAlgebra
