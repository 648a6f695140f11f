import StackAlgebra.Proofs.Expr.Measured
import StackAlgebra.Proofs.NormalForm.Linear
import StackAlgebra.Proofs.NormalForm.Simplify

/-!
# Canonical forms keep their measures

The functions to and from angles in a canonical form are those of the expression that it comes from,
with the measures that they have there; none is put in without one. So if no measure is missing in
an expression, none is missing in its canonical form (`isMeasured_simplify`), which can then be
compared with every other such form.
-/

namespace StackAlgebra.Canonical

open StackAlgebra.Expr (num nonNumbers IsMeasured)

variable {fs ms : List Expr} {b e r x : Expr} {name : Option String}

/-- Measures have nothing to do with coefficients. -/
theorem ignoresCoefficients_isMeasured : IgnoresCoefficients IsMeasured :=
  ignoresCoefficients_everywhere (fun _ => trivial) (fun _ => trivial) (fun _ _ => trivial)
    fun _ _ _ _ => trivial

/-! ## Products and powers -/

mutual
/-- The factors of an expression have measures if the expression has them. -/
theorem isMeasured_multiplicands (e : Expr) (h : e.IsMeasured) :
    ∀ f ∈ multiplicands e, f.IsMeasured := by
  cases e with
  | product fs => exact isMeasured_multiplicandsOf fs (Expr.isMeasured_product_iff.mp h)
  | _ => exact List.forall_mem_singleton.mpr h

/-- The factors of expressions have measures if the expressions have them. -/
theorem isMeasured_multiplicandsOf (es : List Expr) (h : ∀ e ∈ es, e.IsMeasured) :
    ∀ f ∈ multiplicandsOf es, f.IsMeasured := by
  cases es with
  | nil => exact List.forall_mem_nil _
  | cons e es =>
    obtain ⟨he, hes⟩ := List.forall_mem_cons.mp h
    exact List.forall_mem_append.mpr
      ⟨isMeasured_multiplicands e he, isMeasured_multiplicandsOf es hes⟩
end

/-- Base and exponent of a factor have measures if the factor has them. -/
theorem isMeasured_splitPower (h : e.IsMeasured) :
    e.splitPower.1.IsMeasured ∧ e.splitPower.2.IsMeasured := by
  cases e with
  | power b a => exact Expr.isMeasured_power_iff.mp h
  | _ => exact ⟨h, Expr.isMeasured_num 1⟩

/-- Bases and exponents of factors have measures if the factors have them. -/
theorem isMeasured_group (h : ∀ f ∈ fs, f.IsMeasured) {g : Expr × List Expr}
    (hg : g ∈ powersOf fs) :
    g.1.IsMeasured ∧ ∀ e ∈ g.2, e.IsMeasured := by
  have hsplit : ∀ y ∈ (nonNumbers fs).map Expr.splitPower, y.1.IsMeasured ∧ y.2.IsMeasured := by
    intro y hy
    obtain ⟨f, hf, rfl⟩ := List.mem_map.mp hy
    exact isMeasured_splitPower (h f (Expr.mem_of_mem_nonNumbers hf))
  constructor
  · obtain ⟨y, hy, heq⟩ := label_mem_group hg
    exact heq ▸ (hsplit y hy).1
  · intro e he
    obtain ⟨y, hy, heq⟩ := value_mem_group hg he
    exact heq ▸ (hsplit y hy).2

/-- A number and factors with measures are put together to an expression with measures. -/
theorem isMeasured_productOf (h : ∀ f ∈ fs, f.IsMeasured) (c : Rat) : (productOf c fs).IsMeasured :=
  everywhere_productOf (fun _ => trivial) (fun _ => trivial) h c

/-- A power of a number has measures if its exponent has them. -/
theorem isMeasured_numberPower {q : Rat} (he : e.IsMeasured) (h : numberPower q e = .ok r) :
    r.IsMeasured := by
  cases numberPower_eq_ok h with
  | number p hr => exact hr ▸ Expr.isMeasured_num p
  | stays _ _ hr => exact hr ▸ Expr.isMeasured_power_iff.mpr ⟨Expr.isMeasured_num q, he⟩
  | root f c _ _ _ hr _ => exact hr ▸ ignoresCoefficients_isMeasured.term (by simp) c

/-- What a product of expressions with measures comes to has measures. -/
def ProductKeepsMeasures (fs : List Expr) : Prop :=
  (∀ f ∈ fs, f.IsMeasured) → ∀ r, product fs = .ok r → r.IsMeasured

/-- What a power of expressions with measures comes to has measures. -/
def PowerKeepsMeasures (b e : Expr) : Prop :=
  b.IsMeasured → e.IsMeasured → ∀ r, power b e = .ok r → r.IsMeasured

/-- Merged bases have measures, if the powers of several exponents have them. -/
theorem isMeasured_merged_of_calls (h : ∀ f ∈ fs, f.IsMeasured)
    (calls : ∀ b es, (b, es) ∈ powersOf fs → 2 ≤ es.length → PowerKeepsMeasures b (sum es))
    (hms : List.Forall₂ (fun g m => mergePower g = .ok m) (powersOf fs) ms) :
    ∀ m ∈ ms, m.IsMeasured := by
  intro m hm
  obtain ⟨⟨b, es⟩, hg, hgm⟩ := exists_of_mem_forall₂ hms hm
  obtain ⟨hb, hes⟩ := isMeasured_group h hg
  have hpos : 1 ≤ es.length := length_mem_group _ hg
  rcases Nat.lt_or_ge es.length 2 with hlt | hge
  · obtain ⟨e, rfl⟩ : ∃ e, es = [e] := List.length_eq_one_iff.mp (by omega)
    rw [← Except.ok.inj hgm, bare]
    split_ifs
    · exact hb
    · exact Expr.isMeasured_power_iff.mpr ⟨hb, hes e (by simp)⟩
  · rw [mergePower_of_two_le hge] at hgm
    obtain ⟨s, hs, hpow⟩ := bind_eq_ok_iff.mp hgm
    obtain ⟨rfl, -⟩ := inOrder_eq_ok_iff.mp hs
    exact calls b es hg hge hb (ignoresCoefficients_isMeasured.canonicalSum hes) m hpow

/-- A product comes to a result with measures if its calls do. -/
theorem productKeepsMeasures_of_calls
    (calls : ProductCalls ProductKeepsMeasures PowerKeepsMeasures fs) :
    ProductKeepsMeasures fs := by
  intro hfs r h
  have hos : ∀ f ∈ opened fs, f.IsMeasured := fun f hf =>
    isMeasured_multiplicandsOf fs hfs f (mem_opened.mp hf)
  rcases merged_of_product_eq_ok h with ⟨-, rfl⟩ | ⟨-, ms, hms, hr⟩
  · exact Expr.isMeasured_num 0
  have hnon : ∀ m ∈ nonNumbers ms, m.IsMeasured := fun m hm =>
    isMeasured_merged_of_calls hos calls.merged hms m (Expr.mem_of_mem_nonNumbers hm)
  cases multiply_eq_ok hr with
  | again he hr =>
    exact calls.again ms hms he.1 _ (List.forall_mem_append.mpr ⟨hnon, by simp⟩) r hr
  | spread he ts rs hts h0 h1 hrs hr ho =>
    have hsum : (Expr.sum ts).IsMeasured := hnon _ (by rw [hts]; exact List.mem_singleton.mpr rfl)
    rw [hr]
    refine ignoresCoefficients_isMeasured.canonicalSum fun x hx => ?_
    obtain ⟨t, ht, hx⟩ := exists_of_mem_forall₂ hrs hx
    refine calls.spread ms hms ts hts _ t ht ?_ x hx
    simpa using Expr.isMeasured_sum_iff.mp hsum t ht
  | gather he hs hr ho =>
    rw [hr]
    exact isMeasured_productOf hnon _

/-- A power comes to a result with measures if its calls do. -/
theorem powerKeepsMeasures_of_calls
    (calls : PowerCalls ProductKeepsMeasures PowerKeepsMeasures b e) :
    PowerKeepsMeasures b e := by
  intro hb he r h
  cases raised_of_power_eq_ok h with
  | zero _ _ hr => exact hr ▸ Expr.isMeasured_num 1
  | one _ _ hr => exact hr ▸ hb
  | number _ _ q _ hr => exact isMeasured_numberPower he hr
  | inner _ _ b' a x hb' hx hr =>
    rw [hb', Expr.isMeasured_power_iff] at hb
    have hxm := calls.exponents b' a hb' (by simpa using ⟨hb.2, he⟩) x hx
    exact calls.inner b' a x hb' hx hb.1 hxm r hr
  | factors _ _ fs rs hb' hi hrs hr =>
    rw [hb', Expr.isMeasured_product_iff] at hb
    refine calls.factors fs rs hb' hi hrs (fun x hx => ?_) r hr
    obtain ⟨f, hf, hx⟩ := exists_of_mem_forall₂ hrs hx
    exact calls.factor fs hb' hi f hf (hb f hf) he x hx
  | stays _ _ _ _ _ hr => exact hr ▸ Expr.isMeasured_power_iff.mpr ⟨hb, he⟩

/-- The product of expressions with measures has measures. -/
theorem isMeasured_product (hfs : ∀ f ∈ fs, f.IsMeasured) (h : product fs = .ok r) : r.IsMeasured :=
  product_induction (fun _ => productKeepsMeasures_of_calls)
    (fun _ _ => powerKeepsMeasures_of_calls) fs hfs r h

/-- A power of expressions with measures has measures. -/
theorem isMeasured_power (hb : b.IsMeasured) (he : e.IsMeasured) (h : power b e = .ok r) :
    r.IsMeasured :=
  power_induction (fun _ => productKeepsMeasures_of_calls) (fun _ _ => powerKeepsMeasures_of_calls)
    b e hb he r h

/-! ## Functions -/

/-- What stands beside a coefficient has measures if the term has them, and so has its absolute
value. -/
theorem isMeasured_absRest {c : Rat} (hm : x.IsMonic) (h : (term c x).IsMeasured) :
    (absRest x).IsMeasured := by
  have hx : x.IsMeasured := ignoresCoefficients_isMeasured.rest h (hm.rest?_term c)
  unfold absRest
  split_ifs
  · exact hx
  · exact Expr.isMeasured_unary_iff.mpr hx

/-- The absolute value of a settled expression with measures has measures. -/
theorem isMeasured_abs (hs : x.IsSettled) (hx : x.IsMeasured) (h : abs x = .ok r) :
    r.IsMeasured := by
  cases abs_eq_ok hs h with
  | number q _ hr => exact hr ▸ Expr.isMeasured_num _
  | nonnegative _ _ hr => exact hr ▸ hx
  | stays _ _ _ hr => exact hr ▸ Expr.isMeasured_unary_iff.mpr hx
  | scaled c rest hm hterm hr =>
    exact isMeasured_product (by simpa using isMeasured_absRest hm (hterm ▸ hx)) hr

/-- The logarithm of expressions with measures has measures. -/
theorem isMeasured_log (hx : x.IsMeasured) (hb : b.IsMeasured) (h : log x b = .ok r) :
    r.IsMeasured := by
  rcases log_eq_ok h with ⟨k, rfl⟩ | ⟨b', rfl⟩ | rfl
  · exact Expr.isMeasured_num k
  · exact (Expr.isMeasured_power_iff.mp hx).2
  · exact Expr.isMeasured_log_iff.mpr ⟨hx, hb⟩

/-- The remainder of expressions with measures has measures. -/
theorem isMeasured_mod {d : Expr} (hx : x.IsMeasured) (hd : d.IsMeasured) (h : mod x d = .ok r) :
    r.IsMeasured := by
  rcases mod_eq_ok h with ⟨q, rfl⟩ | rfl
  · exact Expr.isMeasured_num q
  · exact Expr.isMeasured_mod_iff.mpr ⟨hx, hd⟩

/-- There are no functions of angles among the tabulated values. -/
theorem isMeasured_tabulated : ∀ e ∈ tabulated, e.IsMeasured := by
  simp [tabulated, SpecialAngle.sines, SpecialAngle.tangents, SpecialAngle.root]

/-- There are no functions of angles in a full turn. -/
theorem isMeasured_fullTurn (m : AngleMeasure) : (fullTurn m).IsMeasured := by
  unfold fullTurn
  split_ifs <;> simp

/-- A function to or from angles with a measure, applied to an expression with measures, has
measures. -/
theorem isMeasured_angle {f : AngleFunction} (hm : name.isSome = true) (hx : x.IsMeasured)
    (h : angle f x name = .ok r) : r.IsMeasured := by
  have hstands : (Expr.angle f x name).IsMeasured := Expr.isMeasured_angle_iff.mpr ⟨hm, hx⟩
  unfold angle at h
  split_ifs at h
  · rcases toAngle_eq_ok h with ⟨t, m, ht⟩ | rfl
    · exact isMeasured_product (by simpa using isMeasured_fullTurn m) ht
    · exact hstands
  · rcases ofAngle_eq_ok h with ⟨e, he, rfl | hr⟩ | rfl
    · exact isMeasured_tabulated _ he
    · exact isMeasured_product (by simpa using isMeasured_tabulated e he) hr
    · exact hstands

/-- A function of one settled operand with measures has measures. -/
theorem isMeasured_unary {f : UnaryFunction} (hs : x.IsSettled) (hx : x.IsMeasured)
    (h : unary f x = .ok r) : r.IsMeasured := by
  cases f with
  | neg => exact isMeasured_product (by simpa using hx) h
  | recip => exact isMeasured_power hx (Expr.isMeasured_num _) h
  | abs => exact isMeasured_abs hs hx h
  | sqrt => exact isMeasured_power hx (Expr.isMeasured_num _) h
  | square => exact isMeasured_power hx (Expr.isMeasured_num _) h
  | ln => exact isMeasured_log hx (Expr.isMeasured_const _) h

end StackAlgebra.Canonical

namespace StackAlgebra.Expr

variable {e r : Expr}

/-- No measure is missing in a canonical form if none is missing in the expression. -/
theorem isMeasured_simplify (hm : e.IsMeasured) (h : e.simplify = .ok r) : r.IsMeasured := by
  induction e using induction_on_children generalizing r with
  | step e ih =>
    have child {c r : Expr} (hc : c ∈ e.children) (h : c.simplify = .ok r) : r.IsMeasured :=
      ih c hc (hm.child hc) h
    have all {es rs : List Expr} (hes : ∀ x ∈ es, x ∈ e.children)
        (hrs : List.Forall₂ (fun e r => e.simplify = .ok r) es rs) : ∀ r ∈ rs, r.IsMeasured := by
      intro r hr
      obtain ⟨x, hx, hxr⟩ := Canonical.exists_of_mem_forall₂ hrs hr
      exact child (hes x hx) hxr
    cases simplify_eq_ok_iff.mp h with
    | num _ | const _ | var _ => exact hm
    | sum hrs ho =>
      exact Canonical.ignoresCoefficients_isMeasured.canonicalSum (all (fun _ h => h) hrs)
    | product hrs hr => exact Canonical.isMeasured_product (all (fun _ h => h) hrs) hr
    | power hb he hr =>
      exact Canonical.isMeasured_power (child (by simp) hb) (child (by simp) he) hr
    | unary hx hr =>
      exact Canonical.isMeasured_unary (settled_simplify hx) (child (by simp) hx) hr
    | log hx hb hr =>
      exact Canonical.isMeasured_log (child (by simp) hx) (child (by simp) hb) hr
    | mod hx hd hr =>
      exact Canonical.isMeasured_mod (child (by simp) hx) (child (by simp) hd) hr
    | angle hx hr => exact Canonical.isMeasured_angle hm.here (child (by simp) hx) hr

end StackAlgebra.Expr
