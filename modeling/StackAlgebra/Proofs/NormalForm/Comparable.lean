import StackAlgebra.Proofs.NormalForm.Measured

/-!
# Canonical forms that can be put in order

Terms and factors that no order puts in a row stop a computation. Where no angle measure is missing
this does not happen: all that products, powers and functions make of such expressions has its
measures, and can be compared. So bringing an expression to canonical form never stops for want of
an order (`IsMeasured.orders_simplify`). What else can stop it lies in the values: a division by
zero, a result that is not real, a measure that is unknown. Nothing of another kind goes wrong
(`ordersIf_simplify`).
-/

namespace StackAlgebra

/-- The cause lies in what is computed: there is no such value, or a measure is unknown. -/
def Error.isOfValue (ε : Error) : Bool :=
  match ε.kind with
  | .divisionByZero | .undefined | .zeroDivision | .lookup => true
  | _ => false

namespace Canonical

open StackAlgebra.Expr (num nonNumbers IsMeasured)

variable {M : Prop} {fs ms : List Expr} {b e r x : Expr} {name : Option String}

/-! ## Computations that never stop for want of an order -/

section Orders

variable {N : Prop} {α β : Type} {y : Except Error α} {ε : Error}

/-- The computation does not stop for want of an order. -/
def Orders (y : Except Error α) : Prop :=
  y ≠ .error .incomparable

/-- The computation stops only for what is computed or, unless `M` holds, for want of an order. -/
def OrdersIf (M : Prop) (y : Except Error α) : Prop :=
  ∀ ε, y = .error ε → ε.isOfValue = true ∨ ε = .incomparable ∧ ¬ M

/-- Where `M` holds the computation does not stop for want of an order. -/
theorem OrdersIf.orders (h : OrdersIf M y) (hM : M) : Orders y := by
  intro hy
  rcases h .incomparable hy with hvalue | ⟨-, hnot⟩
  · cases hvalue
  · exact hnot hM

/-- What does not stop where `N` holds does not stop where something stronger does. -/
theorem OrdersIf.mono (h : OrdersIf N y) (hMN : M → N) : OrdersIf M y :=
  fun ε hε => (h ε hε).imp_right fun ⟨hε, hN⟩ => ⟨hε, fun hM => hN (hMN hM)⟩

/-- A result is no failure. -/
theorem ordersIf_ok (a : α) : OrdersIf M (.ok a) :=
  fun ε h => by cases h

/-- A failure for what is computed is not for want of an order. -/
theorem ordersIf_error (h : ε.isOfValue = true) : OrdersIf M (.error ε : Except Error α) :=
  fun _ hε => .inl (Except.error.inj hε ▸ h)

/-- A computation stops for want of an order neither in its first part nor in what follows on
that. -/
theorem OrdersIf.bind {f : α → Except Error β} (hy : OrdersIf M y)
    (hf : ∀ a, y = .ok a → OrdersIf M (f a)) :
    OrdersIf M (y >>= f) := by
  cases y with
  | error δ => exact fun ε h => hy ε (congrArg Except.error (Except.error.inj h))
  | ok a => exact hf a rfl

/-- Of computations one after the other none stops for want of an order. -/
theorem ordersIf_mapM {f : α → Except Error β} {l : List α} (h : ∀ a ∈ l, OrdersIf M (f a)) :
    OrdersIf M (l.mapM f) := by
  induction l with
  | nil => exact ordersIf_ok _
  | cons a l ih =>
    obtain ⟨ha, hl⟩ := List.forall_mem_cons.mp h
    rw [List.mapM_cons]
    exact ha.bind fun _ _ => (ih hl).bind fun _ _ => ordersIf_ok _

/-- An expression with measures is put in order. -/
theorem ordersIf_inOrder (h : M → e.IsMeasured) : OrdersIf M (inOrder e) := by
  intro ε hε
  unfold inOrder at hε
  split_ifs at hε with ho
  exact .inr ⟨(Except.error.inj hε).symm, fun hM => ho (h hM).hasOrder⟩

end Orders

/-! ## Products and powers -/

/-- The product of expressions with measures does not stop for want of an order. -/
def ProductOrders (fs : List Expr) : Prop :=
  OrdersIf (∀ f ∈ fs, f.IsMeasured) (product fs)

/-- The power of expressions with measures does not stop for want of an order. -/
def PowerOrders (b e : Expr) : Prop :=
  OrdersIf (b.IsMeasured ∧ e.IsMeasured) (power b e)

/-- Merged bases have measures. -/
theorem isMeasured_merged (h : ∀ f ∈ fs, f.IsMeasured)
    (hms : List.Forall₂ (fun g m => mergePower g = .ok m) (powersOf fs) ms) :
    ∀ m ∈ ms, m.IsMeasured :=
  isMeasured_merged_of_calls h (fun _ _ _ _ hb he _ => isMeasured_power hb he) hms

/-- A group of exponents with measures is merged. -/
theorem ordersIf_mergePower {g : Expr × List Expr}
    (hm : M → g.1.IsMeasured ∧ ∀ e ∈ g.2, e.IsMeasured) (hg : 1 ≤ g.2.length)
    (calls : 2 ≤ g.2.length → PowerOrders g.1 (sum g.2)) : OrdersIf M (mergePower g) := by
  obtain ⟨b, es⟩ := g
  rcases Nat.lt_or_ge es.length 2 with hlt | hge
  · obtain ⟨e, rfl⟩ : ∃ e, es = [e] := List.length_eq_one_iff.mp (by simp only at hg; omega)
    exact ordersIf_ok _
  · have hsum (hM : M) : (sum es).IsMeasured :=
      ignoresCoefficients_isMeasured.canonicalSum (hm hM).2
    rw [mergePower_of_two_le hge]
    refine (ordersIf_inOrder hsum).bind fun x hx => ?_
    rw [(inOrder_eq_ok_iff.mp hx).1]
    exact (calls hge).mono fun hM => ⟨(hm hM).1, hsum hM⟩

/-- A product does not stop for want of an order if its calls do not. -/
theorem productOrders_of_calls (calls : ProductCalls ProductOrders PowerOrders fs) :
    ProductOrders fs := by
  have hos (hfs : ∀ f ∈ fs, f.IsMeasured) : ∀ f ∈ opened fs, f.IsMeasured :=
    fun f hf => isMeasured_multiplicandsOf fs hfs f (mem_opened.mp hf)
  unfold ProductOrders
  rw [product_eq]
  split_ifs
  · exact ordersIf_ok _
  refine OrdersIf.bind (ordersIf_mapM fun g hg => ?_) fun ms hms => ?_
  · exact ordersIf_mergePower (fun hfs => isMeasured_group (hos hfs) hg) (length_mem_group g hg)
      (calls.merged g.1 g.2 hg)
  have hms := mapM_eq_ok_iff.mp hms
  have hnon (hfs : ∀ f ∈ fs, f.IsMeasured) : ∀ m ∈ nonNumbers ms, m.IsMeasured := fun m hm =>
    isMeasured_merged (hos hfs) hms m (Expr.mem_of_mem_nonNumbers hm)
  unfold multiply
  split_ifs with he
  · -- The factors of a merged base are multiplied once more.
    exact (calls.again ms hms he.1 _).mono fun hfs => List.forall_mem_append.mpr ⟨hnon hfs, by simp⟩
  unfold distribute
  split
  · -- A number is distributed over the terms of a sum.
    rename_i ts hts
    obtain ⟨hts, -, -⟩ := spread?_eq_some_iff.mp hts
    have hpair (hfs : ∀ f ∈ fs, f.IsMeasured) : ∀ t ∈ ts, ∀ c, ∀ f ∈ [num c, t], f.IsMeasured := by
      intro t ht c
      have hsum : (Expr.sum ts).IsMeasured :=
        hnon hfs _ (by rw [hts]; exact List.mem_singleton.mpr rfl)
      simpa using Expr.isMeasured_sum_iff.mp hsum t ht
    refine OrdersIf.bind (ordersIf_mapM fun t ht => ?_) fun rs hrs => ordersIf_inOrder fun hfs => ?_
    · exact (calls.spread ms hms ts hts _ t ht).mono fun hfs => hpair hfs t ht _
    · refine ignoresCoefficients_isMeasured.canonicalSum fun r hr => ?_
      obtain ⟨t, ht, htr⟩ := exists_of_mem_forall₂ (mapM_eq_ok_iff.mp hrs) hr
      exact isMeasured_product (hpair hfs t ht _) htr
  · exact ordersIf_inOrder fun hfs => isMeasured_productOf (hnon hfs) _

/-- A power of a number does not stop for want of an order. -/
theorem ordersIf_numberPower (q : Rat) (e : Expr) : OrdersIf M (numberPower q e) := by
  have hrational (p : Rat) : OrdersIf M (rationalPower q p) := by
    unfold rationalPower
    split_ifs
    · exact ordersIf_ok _
    · exact ordersIf_error rfl
    all_goals
      split
      · exact ordersIf_ok _
      · exact ordersIf_ok _
  cases hn : e.isNum with
  | true =>
    obtain ⟨p, rfl⟩ := Expr.exists_eq_num hn
    simp only [numberPower]
    split_ifs
    · exact ordersIf_ok _
    · exact ordersIf_error rfl
    · exact ordersIf_ok _
    · exact hrational p
  | false =>
    by_cases h1 : q = 1
    · unfold numberPower
      rw [if_pos h1]
      exact ordersIf_ok _
    · rw [numberPower_of_not_isNum h1 hn]
      exact ordersIf_ok _

/-- A power does not stop for want of an order if its calls do not. -/
theorem powerOrders_of_calls (calls : PowerCalls ProductOrders PowerOrders b e) :
    PowerOrders b e := by
  unfold PowerOrders
  rw [power_eq]
  by_cases h0 : e.isZero = true
  · rw [if_pos h0]
    split_ifs
    · exact ordersIf_error rfl
    · exact ordersIf_ok _
  by_cases h1 : e.isOne = true
  · rw [if_neg h0, if_pos h1]
    exact ordersIf_ok _
  rw [if_neg h0, if_neg h1]
  cases b with
  | num q => exact ordersIf_numberPower q e
  | power b' a =>
    -- The exponents are multiplied first, and the inner base is raised to their product.
    have hpair (h : (Expr.power b' a).IsMeasured ∧ e.IsMeasured) : ∀ f ∈ [a, e], f.IsMeasured := by
      simpa using ⟨(Expr.isMeasured_power_iff.mp h.1).2, h.2⟩
    refine OrdersIf.bind ((calls.exponents b' a rfl).mono hpair) fun x hx => ?_
    exact (calls.inner b' a x rfl hx).mono fun h =>
      ⟨(Expr.isMeasured_power_iff.mp h.1).1, isMeasured_product (hpair h) hx⟩
  | product fs =>
    have hfs (h : (Expr.product fs).IsMeasured ∧ e.IsMeasured) : ∀ f ∈ fs, f.IsMeasured :=
      Expr.isMeasured_product_iff.mp h.1
    dsimp only
    by_cases hi : e.isInteger = true
    · rw [if_pos hi]
      refine OrdersIf.bind (ordersIf_mapM fun f hf => ?_) fun rs hrs => ?_
      · exact (calls.factor fs rfl hi f hf).mono fun h => ⟨hfs h f hf, h.2⟩
      have hrs := mapM_eq_ok_iff.mp hrs
      refine (calls.factors fs rs rfl hi hrs).mono fun h r hr => ?_
      obtain ⟨f, hf, hfr⟩ := exists_of_mem_forall₂ hrs hr
      exact isMeasured_power (hfs h f hf) h.2 hfr
    · rw [if_neg hi]
      exact ordersIf_ok _
  | _ => exact ordersIf_ok _

/-- The product of expressions with measures does not stop for want of an order. -/
theorem ordersIf_product (h : M → ∀ f ∈ fs, f.IsMeasured) : OrdersIf M (product fs) :=
  (product_induction (fun _ => productOrders_of_calls) (fun _ _ => powerOrders_of_calls) fs).mono h

/-- The power of expressions with measures does not stop for want of an order. -/
theorem ordersIf_power (hb : M → b.IsMeasured) (he : M → e.IsMeasured) : OrdersIf M (power b e) :=
  (power_induction (fun _ => productOrders_of_calls) (fun _ _ => powerOrders_of_calls) b e).mono
    fun hM => ⟨hb hM, he hM⟩

/-! ## Functions -/

/-- The absolute value of a settled expression with measures does not stop for want of an order. -/
theorem ordersIf_abs (hs : x.IsSettled) (hx : M → x.IsMeasured) : OrdersIf M (abs x) := by
  cases hn : x.isNum with
  | true =>
    obtain ⟨q, rfl⟩ := Expr.exists_eq_num hn
    exact ordersIf_ok _
  | false =>
    cases hp : isNonnegative x with
    | true =>
      rw [abs_of_isNonnegative hn hp]
      exact ordersIf_ok x
    | false =>
      obtain ⟨c, rest, hsplit, hrest⟩ := splitCoefficient_spec hs hn
      rw [abs_eq hn hp hsplit]
      split_ifs with h1
      · exact ordersIf_ok _
      · obtain ⟨hm, -, hterm⟩ := hrest h1
        exact ordersIf_product fun hM => by simpa using isMeasured_absRest hm (hterm ▸ hx hM)

/-- A logarithm does not stop for want of an order. -/
theorem ordersIf_log (x b : Expr) : OrdersIf M (log x b) := by
  have hbase : OrdersIf M (checkBase b) := by
    unfold checkBase
    split
    · split_ifs
      · exact ordersIf_error rfl
      · exact ordersIf_error rfl
      · exact ordersIf_ok _
    · exact ordersIf_ok _
  have hoperand : OrdersIf M (checkOperand x) := by
    unfold checkOperand
    split
    · split_ifs
      · exact ordersIf_error rfl
      · exact ordersIf_ok _
    · exact ordersIf_ok _
  refine hbase.bind fun _ _ => hoperand.bind fun _ _ => ?_
  cases exponentOf? x b with
  | some e => exact ordersIf_ok e
  | none =>
    dsimp only
    split
    · unfold numberLog
      split
      · exact ordersIf_error rfl
      · split <;> exact ordersIf_ok _
    · exact ordersIf_ok _

/-- A remainder does not stop for want of an order. -/
theorem ordersIf_mod (x d : Expr) : OrdersIf M (mod x d) := by
  unfold mod
  split_ifs
  · exact ordersIf_error rfl
  · split
    · exact ordersIf_ok _
    · split_ifs <;> exact ordersIf_ok _

/-- A measure is looked up without an order. -/
theorem ordersIf_measureOf (name : Option String) : OrdersIf M (measureOf name) := by
  unfold measureOf
  split
  · exact ordersIf_ok _
  · exact ordersIf_error rfl

/-- The special angle of an expression is looked up without an order. -/
theorem ordersIf_angle? (x : Expr) {table : List (Rat × Expr)} (h : ∀ p ∈ table, p.2.IsMeasured) :
    OrdersIf M (SpecialAngle.angle? x table) := by
  induction table with
  | nil => exact ordersIf_ok _
  | cons p table ih =>
    obtain ⟨hp, htable⟩ := List.forall_mem_cons.mp h
    rw [SpecialAngle.angle?]
    split_ifs
    · exact ordersIf_ok _
    · refine (ordersIf_product fun _ => by simpa using hp).bind fun w _ => ?_
      split_ifs
      · exact ordersIf_ok _
      · exact ih htable

/-- A function of an angle with measures does not stop for want of an order. -/
theorem ordersIf_ofAngle {f : AngleFunction} (hx : M → x.IsMeasured) :
    OrdersIf M (ofAngle f x name) := by
  have hturns (m : AngleMeasure) : OrdersIf M (toTurns x m) := by
    refine (ordersIf_power (fun _ => isMeasured_fullTurn m) fun _ => Expr.isMeasured_num _).bind
      fun p hp => ?_
    have hpm := isMeasured_power (isMeasured_fullTurn m) (Expr.isMeasured_num _) hp
    exact ordersIf_product fun hM => by simpa using ⟨hx hM, hpm⟩
  have hvalue (t : Rat) : OrdersIf M (specialValue? f t) := by
    cases f with
    | tan =>
      simp only [specialValue?, SpecialAngle.tangent?]
      split_ifs
      · exact ordersIf_error rfl
      · exact ordersIf_ok _
    | _ => exact ordersIf_ok _
  refine (ordersIf_measureOf name).bind fun m _ => (hturns m).bind fun t _ => ?_
  split
  · refine (hvalue _).bind fun v hv => ?_
    cases v with
    | some v =>
      dsimp only
      unfold SpecialAngle.Value.toExpr
      split_ifs
      · exact ordersIf_product fun _ => by
          simpa using isMeasured_tabulated _ (mem_of_specialValue? hv)
      · exact ordersIf_ok _
    | none => exact ordersIf_ok _
  · exact ordersIf_ok _

/-- The angle of a sine, cosine or tangent does not stop for want of an order. -/
theorem ordersIf_toAngle {f : AngleFunction} : OrdersIf M (toAngle f x name) := by
  have hcosine : OrdersIf M (checkCosine f x) := by
    unfold checkCosine
    split
    · exact ordersIf_ok _
    · split_ifs
      · exact ordersIf_error rfl
      · exact ordersIf_ok _
    · exact ordersIf_ok _
  have hsines : OrdersIf M (SpecialAngle.angle? x SpecialAngle.sines) :=
    ordersIf_angle? x fun p hp =>
    isMeasured_tabulated _ (List.mem_map_of_mem (List.mem_append_left _ hp))
  have htangents : OrdersIf M (SpecialAngle.angle? x SpecialAngle.tangents) :=
    ordersIf_angle? x fun p hp =>
    isMeasured_tabulated _ (List.mem_map_of_mem (List.mem_append_right _ hp))
  have hspecial : OrdersIf M (specialAngle? f x) := by
    cases f with
    | atan => exact htangents
    | acos =>
      rw [specialAngle?, map_eq_pure_bind]
      exact hsines.bind fun _ _ => ordersIf_ok _
    | _ => exact hsines
  refine hcosine.bind fun _ _ => hspecial.bind fun t _ => ?_
  cases t with
  | some t =>
    exact (ordersIf_measureOf name).bind fun m _ => ordersIf_product fun _ => by
      simpa using isMeasured_fullTurn m
  | none => exact ordersIf_ok _

/-- A function to or from angles of an expression with measures does not stop for want of an
order. -/
theorem ordersIf_angle {f : AngleFunction} (hx : M → x.IsMeasured) :
    OrdersIf M (angle f x name) := by
  unfold angle
  split_ifs
  · exact ordersIf_toAngle
  · exact ordersIf_ofAngle hx

/-- A function of one operand does not stop for want of an order. -/
theorem ordersIf_unary {f : UnaryFunction} (hs : x.IsSettled) (hx : M → x.IsMeasured) :
    OrdersIf M (unary f x) := by
  cases f with
  | neg => exact ordersIf_product fun hM => by simpa using hx hM
  | recip => exact ordersIf_power hx fun _ => Expr.isMeasured_num _
  | abs => exact ordersIf_abs hs hx
  | sqrt => exact ordersIf_power hx fun _ => Expr.isMeasured_num _
  | square => exact ordersIf_power hx fun _ => Expr.isMeasured_num _
  | ln => exact ordersIf_log x _

end Canonical

namespace Expr

open Canonical (Orders OrdersIf ordersIf_ok ordersIf_mapM)

variable {e : Expr}

/-- Bringing an expression to canonical form stops only for what is computed or, where a measure is
missing, for want of an order. -/
theorem ordersIf_simplify (e : Expr) : OrdersIf e.IsMeasured e.simplify := by
  induction e using induction_on_children with
  | step e ih =>
    have child {c : Expr} (hc : c ∈ e.children) : OrdersIf e.IsMeasured c.simplify :=
      (ih c hc).mono fun hm => hm.child hc
    have measured {c r : Expr} (hc : c ∈ e.children) (h : c.simplify = .ok r)
        (hm : e.IsMeasured) : r.IsMeasured :=
      isMeasured_simplify (hm.child hc) h
    have all {es : List Expr} (hes : ∀ x ∈ es, x ∈ e.children) :
        OrdersIf e.IsMeasured (simplifyAll es) := by
      rw [simplifyAll_eq_mapM]
      exact ordersIf_mapM fun x hx => child (hes x hx)
    have allMeasured {es rs : List Expr} (hes : ∀ x ∈ es, x ∈ e.children)
        (h : simplifyAll es = .ok rs) (hm : e.IsMeasured) : ∀ r ∈ rs, r.IsMeasured := by
      intro r hr
      obtain ⟨x, hx, hxr⟩ := Canonical.exists_of_mem_forall₂ (simplifyAll_eq_ok_iff.mp h) hr
      exact measured (hes x hx) hxr hm
    cases e with
    | num _ | const _ | var _ => exact ordersIf_ok _
    | sum ts =>
      rw [simplify]
      refine (all fun _ h => h).bind fun rs hrs => Canonical.ordersIf_inOrder fun hm => ?_
      exact Canonical.ignoresCoefficients_isMeasured.canonicalSum
        (allMeasured (fun _ h => h) hrs hm)
    | product fs =>
      rw [simplify]
      exact (all fun _ h => h).bind fun rs hrs =>
        Canonical.ordersIf_product (allMeasured (fun _ h => h) hrs)
    | power b a =>
      rw [simplify]
      refine (child (c := b) (by simp)).bind fun b' hb =>
        (child (c := a) (by simp)).bind fun a' ha => ?_
      exact Canonical.ordersIf_power (measured (by simp) hb) (measured (by simp) ha)
    | unary f x =>
      rw [simplify]
      refine (child (c := x) (by simp)).bind fun x' hx => ?_
      exact Canonical.ordersIf_unary (settled_simplify hx) (measured (by simp) hx)
    | log x b =>
      rw [simplify]
      exact (child (c := x) (by simp)).bind fun x' _ => (child (c := b) (by simp)).bind fun b' _ =>
        Canonical.ordersIf_log x' b'
    | mod x d =>
      rw [simplify]
      exact (child (c := x) (by simp)).bind fun x' _ => (child (c := d) (by simp)).bind fun d' _ =>
        Canonical.ordersIf_mod x' d'
    | angle f x m =>
      rw [simplify]
      exact (child (c := x) (by simp)).bind fun x' hx =>
        Canonical.ordersIf_angle (measured (by simp) hx)

/-- Where no measure is missing, bringing an expression to canonical form does not stop for want of
an order. -/
theorem IsMeasured.orders_simplify (hm : e.IsMeasured) : Orders e.simplify :=
  e.ordersIf_simplify.orders hm

end Expr
end StackAlgebra
