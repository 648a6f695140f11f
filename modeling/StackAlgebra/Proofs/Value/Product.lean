import StackAlgebra.Proofs.Value.Sum
import StackAlgebra.Proofs.NormalForm.Product
import Mathlib.Algebra.BigOperators.Ring.Finset

/-!
# Values of canonical products and powers

The canonical product of settled expressions that have values exists and has their product as its
value (`product_sound`), and so does an integer power, where zero is raised to positive powers only
(`power_sound`). Equal bases merge by adding their exponents: a base that is zero has positive
exponents only, and so has a positive sum of exponents. The proof is by the induction that follows
the calls between products and powers.
-/

namespace StackAlgebra.Canonical

open StackAlgebra.Expr (num nonNumbers isNum coefficientOf value HasValue)
open scoped List

variable {v : Valuation} {b e f r : Expr} {fs ms : List Expr} {c : Rat}

/-- The result exists and has the value `q`. -/
def Yields (v : Valuation) (x : Except Error Expr) (q : Rat) : Prop :=
  ∃ r, x = .ok r ∧ r.HasValue v ∧ r.value v = q

/-! ## Factors -/

/-- The factors of expressions multiply to these. -/
theorem prod_multiplicandsOf (h : ∀ f ∈ fs, f.IsSettled ∧ f.HasValue v) :
    (∀ f ∈ multiplicandsOf fs, f.HasValue v) ∧
      ((multiplicandsOf fs).map (value v)).prod = (fs.map (value v)).prod := by
  induction fs with
  | nil => simp [multiplicandsOf]
  | cons f fs ih =>
    obtain ⟨h1, h2⟩ := ih fun g hg => h g (List.mem_cons_of_mem _ hg)
    obtain ⟨hs, hv⟩ := h f List.mem_cons_self
    have hf : (∀ g ∈ multiplicands f, g.HasValue v) ∧
        ((multiplicands f).map (value v)).prod = f.value v := by
      cases f with
      | product gs =>
        have hn := (Expr.settled_product_iff.mp hs).1.not_isProduct
        rw [multiplicands, multiplicandsOf_of_not_isProduct hn]
        exact ⟨Expr.hasValue_product_iff.mp hv, Expr.prod_factors hv⟩
      | _ =>
        rw [multiplicands_of_not_isProduct rfl]
        simpa using hv
    rw [multiplicandsOf, List.map_append, List.prod_append, hf.2, h2, List.map_cons, List.prod_cons]
    exact ⟨List.forall_mem_append.mpr ⟨hf.1, h1⟩, rfl⟩

/-- Numbers and other factors multiply to all of them. -/
theorem coefficientOf_mul (fs : List Expr) :
    coefficientOf fs * ((nonNumbers fs).map (value v)).prod = (fs.map (value v)).prod := by
  induction fs with
  | nil => simp [coefficientOf, nonNumbers]
  | cons f fs ih =>
    rw [List.map_cons, List.prod_cons, ← ih]
    cases hn : f.isNum with
    | true =>
      obtain ⟨q, rfl⟩ := Expr.exists_eq_num hn
      rw [coefficientOf, nonNumbers, List.filter_cons_of_neg (by simp [isNum]), ← nonNumbers,
        Expr.value_num, mul_assoc]
    | false =>
      have hc : coefficientOf (f :: fs) = coefficientOf fs := by
        cases f with
        | num q => cases hn
        | _ => rfl
      rw [hc, nonNumbers, List.filter_cons_of_pos (by simp [hn]), ← nonNumbers, List.map_cons,
        List.prod_cons]
      ring

/-- The integer that an exponent is. -/
def exponentValue : Expr → Int
  | .num q => q.num
  | _ => 0

/-- A factor with a value is a base with a value to an integer power, positive if the base is
zero. -/
theorem splitPower_spec (hv : f.HasValue v) :
    f.splitPower.2 = num (exponentValue f.splitPower.2) ∧ f.splitPower.1.HasValue v ∧
      (f.splitPower.1.value v = 0 → 0 < exponentValue f.splitPower.2) ∧
        f.splitPower.1.value v ^ exponentValue f.splitPower.2 = f.value v := by
  cases f with
  | power b e =>
    obtain ⟨k, rfl, hb, hk, hq⟩ := Expr.eval_power_eq_some_iff.mp hv.eval_eq
    simp only [Expr.splitPower, exponentValue, Rat.num_intCast]
    exact ⟨trivial, hb, hk, hq⟩
  | _ =>
    refine ⟨by simp [Expr.splitPower, exponentValue], hv, fun _ => ?_, ?_⟩
    · exact Int.one_pos
    · exact zpow_one _

/-- The exponents of a group are integers, and the base has a value that can be raised to them. -/
structure RaisableGroup (v : Valuation) (g : Expr × List Expr) : Prop where
  hasValue : g.1.HasValue v
  isInteger : ∀ e ∈ g.2, e = num (exponentValue e)
  pos : ∀ e ∈ g.2, g.1.value v = 0 → 0 < exponentValue e

/-- The groups of settled factors with values can be raised. -/
theorem raisable_group (h : AreFactors fs) (hv : ∀ f ∈ fs, f.HasValue v) {g : Expr × List Expr}
    (hg : g ∈ powersOf fs) : RaisableGroup v g := by
  have hmem : ∀ e ∈ g.2, e = num (exponentValue e) ∧ g.1.HasValue v ∧
      (g.1.value v = 0 → 0 < exponentValue e) := by
    intro e he
    obtain ⟨f, hf, hfe⟩ := exists_factor h hg he
    have hs := splitPower_spec (hv f (Expr.mem_of_mem_nonNumbers hf))
    rw [hfe] at hs
    exact ⟨hs.1, hs.2.1, hs.2.2.1⟩
  obtain ⟨e, he⟩ := List.exists_mem_of_length_pos (length_mem_group g hg)
  exact ⟨(hmem e he).2.1, fun e he => (hmem e he).1, fun e he => (hmem e he).2.2⟩

/-- The value of a base to each of its exponents. -/
def groupValue (v : Valuation) (g : Expr × List Expr) : Rat :=
  (g.2.map fun e => g.1.value v ^ exponentValue e).prod

/-- The bases of settled factors, to their exponents, multiply to the factors that are no
numbers. -/
theorem prod_groupValue (h : AreFactors fs) (hv : ∀ f ∈ fs, f.HasValue v) :
    ((powersOf fs).map (groupValue v)).prod = ((nonNumbers fs).map (value v)).prod := by
  have hprod := prod_group (hasKeyedLabels_powers h) fun x => x.1.value v ^ exponentValue x.2
  rw [List.map_map] at hprod
  refine hprod.trans (congrArg List.prod (List.map_congr_left fun f hf => ?_))
  exact (splitPower_spec (hv f (Expr.mem_of_mem_nonNumbers hf))).2.2.2

/-- A base to the sum of its exponents is the product of its powers. -/
theorem zpow_sum {x : Rat} {ks : List Int} (hks : ks ≠ []) (h : ∀ k ∈ ks, x = 0 → 0 < k) :
    (x = 0 → 0 < ks.sum) ∧ x ^ ks.sum = (ks.map fun k => x ^ k).prod := by
  induction ks with
  | nil => exact absurd rfl hks
  | cons k ks ih =>
    have hk := h k List.mem_cons_self
    rw [List.map_cons, List.prod_cons, List.sum_cons]
    cases hks' : ks with
    | nil => simpa using hk
    | cons j js =>
      rw [← hks']
      obtain ⟨h1, h2⟩ := ih (by simp [hks']) fun j hj => h j (List.mem_cons_of_mem _ hj)
      refine ⟨fun h0 => add_pos (hk h0) (h1 h0), ?_⟩
      rw [← h2]
      by_cases h0 : x = 0
      · have hk0 := hk h0
        have hs0 := h1 h0
        rw [h0, zero_zpow _ (by omega), zero_zpow _ hk0.ne', zero_mul]
      · exact zpow_add₀ h0 _ _

/-- Integer exponents add up to an integer. -/
theorem sum_exponents {es : List Expr} (h : ∀ e ∈ es, e = num (exponentValue e)) :
    sum es = num ((es.map exponentValue).sum : Int) := by
  have hnum : ∀ e ∈ es, e.isNum = true := by
    intro e he
    rw [h e he]
    rfl
  have hs : ∀ e ∈ es, e.IsSettled ∧ e.HasValue ⟨fun _ => 1, fun _ => 1, fun _ => one_pos⟩ := by
    intro e he
    rw [h e he]
    exact ⟨Expr.settled_num _, Expr.hasValue_num _⟩
  obtain ⟨-, hval⟩ := sum_sound hs
  have hq := isNum_sum hnum
  cases hsum : sum es with
  | num q =>
    rw [hsum, Expr.value_num] at hval
    rw [hval]
    congr 1
    rw [Int.cast_list_sum, List.map_map]
    refine congrArg List.sum (List.map_congr_left fun e he => ?_)
    rw [h e he]
    simp [exponentValue]
  | _ =>
    rw [hsum] at hq
    cases hq

/-- A merged base exists and has the value of the base to its exponents, if the power does. -/
theorem mergePower_sound (h : AreFactors fs) (hv : ∀ f ∈ fs, f.HasValue v) {g : Expr × List Expr}
    (hg : g ∈ powersOf fs)
    (hpower : 2 ≤ g.2.length → ∀ k : Int, sum g.2 = num k → (g.1.value v = 0 → 0 < k) →
      Yields v (power g.1 (sum g.2)) (g.1.value v ^ k)) :
    Yields v (mergePower g) (groupValue v g) := by
  have hr := raisable_group h hv hg
  obtain ⟨b, es⟩ := g
  rcases Nat.lt_or_ge es.length 2 with hlt | hge
  · have hpos : 1 ≤ es.length := length_mem_group _ hg
    obtain ⟨e, rfl⟩ : ∃ e, es = [e] := List.length_eq_one_iff.mp (by omega)
    obtain ⟨f, hf, hfe⟩ := exists_factor h hg (List.mem_singleton.mpr rfl)
    have hf' := Expr.mem_of_mem_nonNumbers hf
    have hbare := (h f hf').1.bare_splitPower
    have hspec := splitPower_spec (hv f hf')
    rw [hfe] at hbare hspec
    refine ⟨f, congrArg Except.ok hbare, hv f hf', ?_⟩
    rw [groupValue, List.map_singleton, List.prod_singleton, hspec.2.2.2]
  · have hsum := sum_exponents hr.isInteger
    -- A base that is zero has only positive exponents, and so a positive sum of exponents.
    have hne : es.map exponentValue ≠ [] := by
      intro hnil
      rw [List.map_eq_nil_iff.mp hnil] at hge
      cases hge
    have hexp : ∀ k ∈ es.map exponentValue, b.value v = 0 → 0 < k := by
      intro k hk
      obtain ⟨e, he, rfl⟩ := List.mem_map.mp hk
      exact hr.pos e he
    obtain ⟨hpos, hprod⟩ := zpow_sum hne hexp
    obtain ⟨m, hm, hmv, hmq⟩ := hpower hge _ hsum hpos
    refine ⟨m, ?_, hmv, ?_⟩
    · rw [mergePower_of_two_le hge]
      refine bind_eq_ok_iff.mpr ⟨sum es, inOrder_eq_ok_iff.mpr ⟨rfl, ?_⟩, hm⟩
      rw [hsum]
      rfl
    · rw [hmq, hprod, List.map_map]
      rfl

/-- What is put together has the value of the number times the factors. -/
theorem productOf_sound (hv : ∀ f ∈ fs, f.HasValue v) (c : Rat) :
    (productOf c fs).HasValue v ∧ (productOf c fs).value v = c * (fs.map (value v)).prod := by
  have hcollapse : ∀ gs : List Expr, (∀ f ∈ gs, f.HasValue v) →
      (collapse gs).HasValue v ∧ (collapse gs).value v = (gs.map (value v)).prod := by
    intro gs hgs
    match gs, hgs with
    | [], _ => exact ⟨rfl, rfl⟩
    | [f], hgs => exact ⟨hgs f (by simp), by simp [collapse]⟩
    | f :: g :: gs, hgs =>
      have hp := Expr.perm_sort (f :: g :: gs)
      have hs : ∀ x ∈ Expr.sort (f :: g :: gs), x.HasValue v := fun x hx => hgs x (hp.mem_iff.mp hx)
      rw [collapse_of_two_le (by simp)]
      exact ⟨Expr.hasValue_product_iff.mpr hs, (Expr.value_product hs).trans (hp.map _).prod_eq⟩
  unfold productOf
  split_ifs with h0 h1
  · rw [h0, zero_mul]
    exact ⟨rfl, rfl⟩
  · rw [h1, one_mul]
    exact hcollapse fs hv
  · obtain ⟨h2, h3⟩ := hcollapse (fs ++ [num c])
      (List.forall_mem_append.mpr ⟨hv, by simpa using Expr.hasValue_num c⟩)
    refine ⟨h2, h3.trans ?_⟩
    rw [List.map_append, List.prod_append, List.map_singleton, List.prod_singleton, Expr.value_num,
      mul_comm]

/-! ## Products and powers -/

/-- The product of settled expressions with values exists and has their product as its value. -/
def ProductIsSound (v : Valuation) (fs : List Expr) : Prop :=
  (∀ f ∈ fs, f.IsSettled ∧ f.HasValue v) → Yields v (product fs) (fs.map (value v)).prod

/-- An integer power of a settled expression with a value exists and has that power as its value. -/
def PowerIsSound (v : Valuation) (b e : Expr) : Prop :=
  b.IsSettled → b.HasValue v → ∀ k : Int, e = num k → (b.value v = 0 → 0 < k) →
    Yields v (power b e) (b.value v ^ k)

/-- Multiplying merged bases with values is sound, if the products of these are. -/
theorem yields_multiply_of_calls (calls : ProductCalls (ProductIsSound v) (PowerIsSound v) fs)
    (hms : List.Forall₂ (fun g m => mergePower g = .ok m) (powersOf (opened fs)) ms)
    (h : ∀ m ∈ nonNumbers ms, m.IsSettled ∧ m.HasValue v) :
    Yields v (multiply c (powersOf (opened fs)) ms)
      (c * coefficientOf ms * ((nonNumbers ms).map (value v)).prod) := by
  generalize hq : c * coefficientOf ms = q
  by_cases he : Expanded (powersOf (opened fs)) ms
  · have hall : ∀ f ∈ nonNumbers ms ++ [num q], f.IsSettled ∧ f.HasValue v := by
      refine List.forall_mem_append.mpr ⟨h, ?_⟩
      simpa using ⟨Expr.settled_num q, Expr.hasValue_num q⟩
    obtain ⟨r, hr, hrv, hrq⟩ := calls.again ms hms he.1 q hall
    refine ⟨r, Multiplied.eq_ok (.again he (by rw [hq]; exact hr)), hrv, hrq.trans ?_⟩
    rw [List.map_append, List.prod_append, List.map_singleton, List.prod_singleton, Expr.value_num,
      mul_comm]
  · cases hs : spread? q (nonNumbers ms) with
    | some ts =>
      obtain ⟨hts, hq0, hq1⟩ := spread?_eq_some_iff.mp hs
      obtain ⟨hsum, hsv⟩ := h (.sum ts) (by rw [hts]; simp)
      have hts' : ∀ t ∈ ts, t.IsSettled ∧ t.HasValue v := fun t ht =>
        ⟨(Expr.settled_sum_iff.mp hsum).2.2 t ht, Expr.hasValue_sum_iff.mp hsv t ht⟩
      have hpair : ∀ t ∈ ts, ∀ f ∈ [num q, t], f.IsSettled ∧ f.HasValue v := by
        intro t ht
        simpa using ⟨⟨Expr.settled_num q, Expr.hasValue_num q⟩, hts' t ht⟩
      obtain ⟨rs, hrs, hrv, hrq⟩ := exists_forall₂ fun t ht =>
        calls.spread ms hms ts hts q t ht (hpair t ht)
      have hrs' : ∀ r ∈ rs, r.IsSettled ∧ r.HasValue v := by
        intro r hr
        obtain ⟨t, ht, htr⟩ := exists_of_mem_forall₂ hrs hr
        exact ⟨settled_product (fun f hf => (hpair t ht f hf).1) htr, hrv r hr⟩
      obtain ⟨h1, h2⟩ := sum_sound hrs'
      rw [← hq] at hq0 hq1 hrs
      refine ⟨sum rs,
        Multiplied.eq_ok (.spread he ts rs hts hq0 hq1 hrs rfl h1.isMeasured.hasOrder), h1, ?_⟩
      rw [h2, hrq, hts, List.map_singleton, List.prod_singleton,
        Expr.value_sum fun t ht => (hts' t ht).2, ← List.sum_map_mul_left]
      simp
    | none =>
      obtain ⟨h1, h2⟩ := productOf_sound (fun m hm => (h m hm).2) q
      rw [← hq] at hs h1 h2
      refine ⟨_, Multiplied.eq_ok (.gather he hs rfl h1.isMeasured.hasOrder), h1, ?_⟩
      rw [h2, hq]

/-- A product is sound if all its calls are. -/
theorem productIsSound_of_calls (calls : ProductCalls (ProductIsSound v) (PowerIsSound v) fs) :
    ProductIsSound v fs := by
  intro hfs
  obtain ⟨hopen, hprod⟩ := prod_multiplicandsOf hfs
  have hos : AreFactors (opened fs) := areFactors_opened fun f hf => (hfs f hf).1
  have hov : ∀ f ∈ opened fs, f.HasValue v := fun f hf => hopen f (mem_opened.mp hf)
  have hval : coefficientOf (opened fs) * ((nonNumbers (opened fs)).map (value v)).prod =
      (fs.map (value v)).prod := by
    rw [coefficientOf_mul, ← hprod, opened, List.map_reverse, List.prod_reverse]
  by_cases h0 : coefficientOf (opened fs) = 0
  · -- One of the factors is the number zero.
    refine ⟨num 0, by rw [product_eq, if_pos h0], rfl, ?_⟩
    rw [← hval, h0, zero_mul]
    rfl
  obtain ⟨ms, hms, hmv, hmq⟩ := exists_forall₂ fun g hg =>
    mergePower_sound hos hov hg fun hlen k hk hpos =>
      calls.merged g.1 g.2 hg hlen (settled_group hos hg).1
        (raisable_group hos hov hg).hasValue k hk hpos
  have hms' : ∀ m ∈ nonNumbers ms, m.IsSettled ∧ m.HasValue v := fun m hm =>
    ⟨settled_merged hos hms m (Expr.mem_of_mem_nonNumbers hm),
        hmv m (Expr.mem_of_mem_nonNumbers hm)⟩
  -- The number in front and the merged bases multiply to all factors.
  have htotal : coefficientOf (opened fs) * coefficientOf ms *
      ((nonNumbers ms).map (value v)).prod = (fs.map (value v)).prod := by
    rw [mul_assoc, coefficientOf_mul, hmq, prod_groupValue hos hov, hval]
  rw [product_eq_multiply h0 hms, ← htotal]
  exact yields_multiply_of_calls calls hms hms'

/-- The product of two numbers. -/
theorem product_nums (p q : Rat) (h : Yields v (product [num p, num q]) (p * q)) :
    product [num p, num q] = .ok (num (p * q)) := by
  obtain ⟨r, hr, -, hq⟩ := h
  obtain ⟨c, rfl⟩ := Expr.exists_eq_num ((productBound_of_eq_ok hr).isNum (by simp [isNum]))
  rw [hr, ← hq]
  rfl

/-- A power of a power is sound if its calls are. -/
theorem yields_power_power_of_calls {a : Expr} {k : Int}
    (calls : PowerCalls (ProductIsSound v) (PowerIsSound v) (.power b a) (num k))
    (h0 : (num (k : Rat)).isZero = false) (h1 : (num (k : Rat)).isOne = false)
    (hb : (Expr.power b a).IsSettled) (hv : (Expr.power b a).HasValue v)
    (hk : (Expr.power b a).value v = 0 → 0 < k) :
    Yields v (power (.power b a) (num k)) ((Expr.power b a).value v ^ k) := by
  obtain ⟨j, rfl, hbv, hj, hq⟩ := Expr.eval_power_eq_some_iff.mp hv.eval_eq
  rw [← hq] at hk ⊢
  -- The exponents multiply, and a base that is zero has two positive ones.
  have hjk : product [num (j : Rat), num k] = .ok (num ((j * k : Int) : Rat)) := by
    have hx := calls.exponents b (num j) rfl (by
      simpa using ⟨⟨Expr.settled_num _, Expr.hasValue_num _⟩,
        Expr.settled_num _, Expr.hasValue_num _⟩)
    rw [Int.cast_mul]
    exact product_nums _ _ (by simpa using hx)
  have hpos : b.value v = 0 → 0 < j * k := fun hz =>
    mul_pos (hj hz) (hk (by rw [hz, zero_zpow _ (hj hz).ne']))
  obtain ⟨r, hr, hrv, hrq⟩ := calls.inner b (num j) _ rfl hjk (Expr.settled_power_iff.mp hb).2.1 hbv
    (j * k) rfl hpos
  exact ⟨r, Raised.eq_ok (.inner h0 h1 b (num j) _ rfl hjk hr), hrv, hrq.trans (zpow_mul _ _ _)⟩

/-- An integer power of a product is sound if its calls are. -/
theorem yields_power_product_of_calls {k : Int}
    (calls : PowerCalls (ProductIsSound v) (PowerIsSound v) (.product fs) (num k))
    (h0 : (num (k : Rat)).isZero = false) (h1 : (num (k : Rat)).isOne = false)
    (hb : (Expr.product fs).IsSettled) (hv : (Expr.product fs).HasValue v)
    (hk : (Expr.product fs).value v = 0 → 0 < k) :
    Yields v (power (.product fs) (num k)) ((Expr.product fs).value v ^ k) := by
  have hi : (num (k : Rat)).isInteger = true := by simp [Expr.isInteger]
  obtain ⟨-, -, hs⟩ := Expr.settled_product_iff.mp hb
  have hfv := Expr.hasValue_product_iff.mp hv
  have hval := Expr.value_product hfv
  -- If a factor is zero the product is, and its exponent is positive.
  have hpos : ∀ f ∈ fs, f.value v = 0 → 0 < k := by
    intro f hf hz
    apply hk
    rw [hval]
    exact List.prod_eq_zero (List.mem_map.mpr ⟨f, hf, hz⟩)
  obtain ⟨rs, hrs, hrv, hrq⟩ := exists_forall₂ fun f hf =>
    calls.factor fs rfl hi f hf (hs f hf) (hfv f hf) k rfl (hpos f hf)
  have hrs' : ∀ r ∈ rs, r.IsSettled ∧ r.HasValue v := by
    intro r hr
    obtain ⟨f, hf, hfr⟩ := exists_of_mem_forall₂ hrs hr
    exact ⟨settled_power (hs f hf) (Expr.settled_num _) hfr, hrv r hr⟩
  obtain ⟨r, hr, hrv, hrq'⟩ := calls.factors fs rs rfl hi hrs hrs'
  refine ⟨r, Raised.eq_ok (.factors h0 h1 fs rs rfl hi hrs hr), hrv, ?_⟩
  rw [hrq', hrq, hval, List.prod_zpow, List.map_map]
  rfl

/-- A power is sound if all its calls are. -/
theorem powerIsSound_of_calls (calls : PowerCalls (ProductIsSound v) (PowerIsSound v) b e) :
    PowerIsSound v b e := by
  rintro hb hv k rfl hk
  by_cases h0 : k = 0
  · -- The base is not zero.
    have hb0 : b.value v ≠ 0 := fun hz => (hk hz).ne' h0
    have hbz : b.isZero = false := by
      cases b with
      | num q => simpa [Expr.isZero] using hb0
      | _ => rfl
    refine ⟨num 1, Raised.eq_ok (.zero (by simp [Expr.isZero, h0]) hbz rfl), rfl, ?_⟩
    rw [h0, zpow_zero]
    rfl
  have hz : (num (k : Rat)).isZero = false := by simpa [Expr.isZero] using h0
  by_cases h1 : k = 1
  · refine ⟨b, Raised.eq_ok (.one hz (by simp [Expr.isOne, h1]) rfl), hv, ?_⟩
    rw [h1, zpow_one]
  have ho : (num (k : Rat)).isOne = false := by
    have : (k : Rat) ≠ 1 := by exact_mod_cast h1
    simpa [Expr.isOne] using this
  have stays (hn : b.isNum = false) (hp : ∀ b' a, b ≠ .power b' a)
      (hf : b.isProduct = true → (num (k : Rat)).isInteger = false) :
      Yields v (power b (num k)) (b.value v ^ k) := by
    have heval : (Expr.power b (num k)).eval v = some (b.value v ^ k) :=
      Expr.eval_power_eq_some_iff.mpr ⟨k, rfl, hv, hk, rfl⟩
    exact ⟨_, Raised.eq_ok (.stays hz ho hn hp hf rfl), Expr.eval_eq_some_iff.mp heval⟩
  cases b with
  | num q => exact ⟨_, Raised.eq_ok (.number hz ho q rfl (numberPower_int hk)), rfl, rfl⟩
  | power b a => exact yields_power_power_of_calls calls hz ho hb hv hk
  | product fs => exact yields_power_product_of_calls calls hz ho hb hv hk
  | _ => exact stays rfl (by simp) (by simp [Expr.isProduct])

/-- The product of settled expressions with values exists and has their product as its value. -/
theorem product_sound (h : ∀ f ∈ fs, f.IsSettled ∧ f.HasValue v) :
    Yields v (product fs) (fs.map (value v)).prod :=
  product_induction (fun _ => productIsSound_of_calls) (fun _ _ => powerIsSound_of_calls) fs h

/-- An integer power of a settled expression with a value exists and has that power as its value,
unless zero is raised to a power that is not positive. -/
theorem power_sound (hb : b.IsSettled) (hv : b.HasValue v) {k : Int} (hk : b.value v = 0 → 0 < k) :
    Yields v (power b (num k)) (b.value v ^ k) :=
  power_induction (fun _ => productIsSound_of_calls) (fun _ _ => powerIsSound_of_calls) b (num k)
    hb hv k rfl hk

end StackAlgebra.Canonical
