import StackAlgebra.Approximation
import StackAlgebra.Proofs.NormalForm.Rational
import StackAlgebra.Proofs.Value.Soundness

/-!
# Approximation without machine numbers

The approximation of a rational expression is the canonical form that it has with tabulated values
in place of the constants (`approximate_rational`). Approximation brings every part into canonical
form once more before it goes on, and that changes nothing since canonical forms of rational
expressions stay (`IsRational.simplify_simplify`); machine numbers come in for powers with other
exponents only, for logarithms and for functions of angles. Without variables the approximation is
the exact value.
-/

namespace StackAlgebra

/-- Tabulated values of the constants, and any of the variables. -/
def Valuation.tabulated (var : String → Rat) : Valuation where
  var := var
  const := Constant.value
  const_pos c := by cases c <;> decide +kernel

namespace Expr

variable {e b : Expr} {es rs : List Expr} {values : String → Rat}

/-! ## Tabulated values for constants -/

mutual
/-- The expression with its tabulated value in place of each constant. -/
def tabulate : Expr → Expr
  | num q => num q
  | const c => num c.value
  | var x => var x
  | sum ts => sum (tabulateAll ts)
  | product fs => product (tabulateAll fs)
  | power b e => power b.tabulate e.tabulate
  | unary f x => unary f x.tabulate
  | log x b => log x.tabulate b.tabulate
  | mod x d => mod x.tabulate d.tabulate
  | angle f x m => angle f x.tabulate m

/-- The expressions with tabulated values in place of constants. -/
def tabulateAll : List Expr → List Expr
  | [] => []
  | e :: es => e.tabulate :: tabulateAll es
end

/-- The expression has no variables. -/
def IsGround (e : Expr) : Prop :=
  e.Everywhere fun n => ∀ x, n ≠ var x

/-- Values are put in for the constants of each expression. -/
theorem tabulateAll_eq_map (es : List Expr) : tabulateAll es = es.map tabulate := by
  induction es with
  | nil => rfl
  | cons e es ih => rw [tabulateAll, ih, List.map_cons]

/-- Values are put in for the constants of the children. -/
theorem children_tabulate (e : Expr) : e.tabulate.children = e.children.map tabulate := by
  cases e with
  | sum ts => exact tabulateAll_eq_map ts
  | product fs => exact tabulateAll_eq_map fs
  | _ => rfl

/-- Rational expressions stay rational. -/
theorem IsRational.tabulate (h : e.IsRational) : e.tabulate.IsRational := by
  refine h.map children_tabulate fun n hn => ?_
  cases n with
  | power b a =>
    cases a with
    | num k => exact hn
    | _ => cases hn
  | log _ _ | angle _ _ _ => exact hn.elim
  | unary f x => exact hn
  | _ => trivial

/-- Without variables nothing is left but numbers. -/
theorem IsGround.isClosed_tabulate (h : e.IsGround) : e.tabulate.IsClosed := by
  refine h.map children_tabulate fun n hn => ?_
  cases n with
  | var x => exact absurd rfl (hn x)
  | _ => trivial

/-- Values together do not change where they do not change one by one. -/
theorem evalAll_tabulateAll {v : Valuation} (h : ∀ e ∈ es, e.tabulate.eval v = e.eval v) :
    evalAll v (tabulateAll es) = evalAll v es := by
  induction es with
  | nil => rfl
  | cons e es ih =>
    obtain ⟨he, hes⟩ := List.forall_mem_cons.mp h
    rw [tabulateAll, evalAll_cons, evalAll_cons, he, ih hes]

/-- The value of a rational expression does not change where constants have their tabulated
values. -/
theorem eval_tabulate (he : e.IsRational) :
    e.tabulate.eval (.tabulated values) = e.eval (.tabulated values) := by
  induction e using induction_on_children with
  | step e ih =>
    have child {c : Expr} (hc : c ∈ e.children) :
        c.tabulate.eval (.tabulated values) = c.eval (.tabulated values) := ih c hc (he.child hc)
    cases e with
    | num _ | const _ | var _ => rfl
    | sum ts =>
      rw [tabulate, eval_sum, eval_sum, evalAll_tabulateAll fun t (ht : t ∈ ts) => child ht]
    | product fs =>
      rw [tabulate, eval_product, eval_product, evalAll_tabulateAll fun f (hf : f ∈ fs) => child hf]
    | power b a =>
      obtain ⟨k, rfl⟩ := Canonical.exists_eq_num_of_isInteger he.here
      rw [tabulate, eval, eval, child (c := b) (by simp)]
      rfl
    | unary f x => rw [tabulate, eval, eval, child (c := x) (by simp)]
    | mod x d => rw [tabulate, eval, eval, child (c := x) (by simp), child (c := d) (by simp)]
    | log _ _ | angle _ _ _ => exact he.here.elim

/-! ## Canonical forms of parts -/

/-- The canonical forms of rational expressions are their own canonical forms. -/
theorem simplifyAll_simplifyAll (h : ∀ e ∈ es, e.IsRational) (hrs : simplifyAll es = .ok rs) :
    simplifyAll rs = .ok rs := by
  rw [simplifyAll_eq_ok_iff] at hrs ⊢
  refine List.forall₂_same.mpr fun r hr => ?_
  obtain ⟨e, he, her⟩ := Canonical.exists_of_mem_forall₂ hrs hr
  exact (h e he).simplify_simplify her

/-- What holds of the approximations one by one holds of all. -/
theorem approximateAll_eq (h : ∀ e ∈ es, e.approximate = e.tabulate.simplify) :
    approximateAll es = simplifyAll (tabulateAll es) := by
  induction es with
  | nil => rfl
  | cons e es ih =>
    obtain ⟨he, hes⟩ := List.forall_mem_cons.mp h
    rw [approximateAll, tabulateAll, simplifyAll, he, ih hes]

/-- An integer power takes no machine numbers. -/
theorem approximation_power {k : Rat} (hi : (num k).isInteger = true) :
    Approximation.power b (num k) = (power b (num k)).simplify := by
  have hden : k.den = 1 := of_decide_eq_true hi
  cases b with
  | num p => rw [Approximation.power, if_pos hden]
  | _ => rfl

/-- The approximation of a rational expression is its canonical form with tabulated values for its
constants. -/
theorem approximate_eq_simplify (he : e.IsRational) : e.approximate = e.tabulate.simplify := by
  induction e using induction_on_children with
  | step e ih =>
    have child {c : Expr} (hc : c ∈ e.children) : c.approximate = c.tabulate.simplify :=
      ih c hc (he.child hc)
    -- What a part has come to is a canonical form already, so that its second simplification
    -- changes nothing.
    have again {c r : Expr} (hc : c ∈ e.children) (h : c.tabulate.simplify = .ok r) :
        r.simplify = .ok r :=
      (IsRational.tabulate (he.child hc)).simplify_simplify h
    have all {es rs : List Expr} (hes : ∀ x ∈ es, x ∈ e.children)
        (h : simplifyAll (tabulateAll es) = .ok rs) :
        simplifyAll rs = .ok rs := by
      refine simplifyAll_simplifyAll (fun x hx => ?_) h
      rw [tabulateAll_eq_map] at hx
      obtain ⟨c, hc, rfl⟩ := List.mem_map.mp hx
      exact IsRational.tabulate (he.child (hes c hc))
    cases e with
    | num q => rfl
    | const c => rfl
    | var x => rfl
    | sum ts =>
      rw [approximate, tabulate, simplify, approximateAll_eq fun t (ht : t ∈ ts) => child ht]
      cases hrs : simplifyAll (tabulateAll ts) with
      | error ε => rfl
      | ok rs =>
        show (sum rs).simplify = _
        rw [simplify, all (fun _ hx => hx) hrs]
    | product fs =>
      rw [approximate, tabulate, simplify, approximateAll_eq fun f (hf : f ∈ fs) => child hf]
      cases hrs : simplifyAll (tabulateAll fs) with
      | error ε => rfl
      | ok rs =>
        show (product rs).simplify = _
        rw [simplify, all (fun _ hx => hx) hrs]
    | power b a =>
      have hi : a.isInteger = true := he.here
      obtain ⟨k, rfl⟩ := Canonical.exists_eq_num_of_isInteger hi
      rw [approximate, tabulate, simplify, child (c := b) (by simp)]
      cases hb : b.tabulate.simplify with
      | error ε => rfl
      | ok b' =>
        show Approximation.power b' (num k) = _
        rw [approximation_power hi, simplify, again (c := b) (by simp) hb]
        rfl
    | unary f x =>
      rw [approximate, tabulate, simplify, child (c := x) (by simp)]
      cases hx : x.tabulate.simplify with
      | error ε => rfl
      | ok x' =>
        show (unary f x').simplify = _
        rw [simplify, again (c := x) (by simp) hx]
    | mod x d =>
      rw [approximate, tabulate, simplify, child (c := x) (by simp), child (c := d) (by simp)]
      cases hx : x.tabulate.simplify with
      | error ε => rfl
      | ok x' =>
        cases hd : d.tabulate.simplify with
        | error ε => rfl
        | ok d' =>
          show (mod x' d').simplify = _
          rw [simplify, again (c := x) (by simp) hx, again (c := d) (by simp) hd]
    | log _ _ | angle _ _ _ => exact he.here.elim

/-! ## Exact values -/

/-- Without variables and constants a rational expression comes down to a number exactly if it has a
value, and to no other. -/
theorem simplify_closed_iff {v : Valuation} {r : Expr} (he : e.IsRational) (hc : e.IsClosed) :
    e.simplify = .ok r ↔ ∃ q, e.eval v = some q ∧ r = num q := by
  constructor
  · intro h
    obtain ⟨hv, hn⟩ := closed_spec (v := v) he hc h
    obtain ⟨r', hr', -, hq⟩ := hv.simplify
    rw [h] at hr'
    obtain rfl := Except.ok.inj hr'
    obtain ⟨q, rfl⟩ := exists_eq_num hn
    exact ⟨q, hv.eval_eq.trans (congrArg some hq.symm), rfl⟩
  · rintro ⟨q, hq, rfl⟩
    obtain ⟨hv, rfl⟩ := eval_eq_some_iff.mp hq
    obtain ⟨r, hr, -, hval⟩ := hv.simplify
    obtain ⟨p, rfl⟩ := exists_eq_num (closed_spec (v := v) he hc hr).2
    rw [hr, ← hval, value_num]

/-- A rational expression is approximated by its canonical form with tabulated values for its
constants, and fails alike; without variables the approximation is the exact value at these, and
there is one exactly if there is a value. -/
theorem approximate_rational (he : e.IsRational) :
    e.approximate = e.tabulate.simplify ∧
      (e.IsGround → ∀ values r, e.approximate = .ok r ↔
        ∃ q, e.eval (.tabulated values) = some q ∧ r = num q) := by
  refine ⟨approximate_eq_simplify he, fun hg values r => ?_⟩
  rw [approximate_eq_simplify he, simplify_closed_iff he.tabulate hg.isClosed_tabulate,
    eval_tabulate he]

/-- The remainder of `-π` by `|1 / c²|`, with the speed of light for `c`, is approximated
exactly. -/
theorem approximate_rational_remainder :
    let e := mod (unary .neg (const .pi)) (unary .abs (power (const .lightSpeed) (num (-2))))
    e.IsRational ∧ e.IsGround ∧
      ∃ q, e.eval (.tabulated fun _ => 0) = some q ∧ e.approximate = .ok (num q) := by
  intro e
  have hpi : (unary .neg (const .pi)).IsRational :=
    .intro (.inl rfl) (List.forall_mem_singleton.mpr (.intro trivial (by simp)))
  have hpower : (power (const .lightSpeed) (num (-2))).IsRational :=
    isRational_power (.intro trivial (by simp)) rfl
  have he : e.IsRational :=
    .intro trivial
      (.pair hpi (.intro (.inr (.inr (.inr rfl))) (List.forall_mem_singleton.mpr hpower)))
  have hg : e.IsGround := by
    have hn (q : Rat) : (num q).IsGround := .intro (by simp) (by simp)
    have hc (c : Constant) : (const c).IsGround := .intro (by simp) (by simp)
    refine .intro (by simp [e]) (.pair ?_ ?_)
    · exact .intro (by simp) (List.forall_mem_singleton.mpr (hc _))
    · exact .intro (by simp)
        (List.forall_mem_singleton.mpr (.intro (by simp) (.pair (hc _) (hn _))))
  obtain ⟨q, hq⟩ :=
    Option.isSome_iff_exists.mp (by decide +kernel : (e.eval (.tabulated fun _ => 0)).isSome = true)
  exact ⟨he, hg, q, hq, ((approximate_rational he).2 hg _ _).mpr ⟨q, hq, rfl⟩⟩

end Expr
end StackAlgebra
