import StackAlgebra.Canonical.Simplify
import StackAlgebra.Proofs.NormalForm.Function

/-!
# Canonical forms are normal

`Expr.simplify` gives settled expressions (`settled_simplify`), by induction on the expression. So
everything that the canonical form is meant to keep is kept at every node, but for one thing: a
power of a product that is merged from several factors may come down to a single factor, and that is
not merged with the others that have its base. Where all bases differ the form is normal, and only
there (`isReduced_and_isNormal_iff`).
-/

namespace StackAlgebra.Expr

open StackAlgebra.Canonical (mapM_eq_ok_iff bind_eq_ok_iff inOrder_eq_ok_iff exists_of_mem_forall₂
  opened powersOf)

variable {e r : Expr}

/-- The canonical forms of expressions are those of each one. -/
theorem simplifyAll_eq_mapM (es : List Expr) : simplifyAll es = es.mapM simplify := by
  induction es with
  | nil => rfl
  | cons e es ih =>
    rw [simplifyAll, List.mapM_cons, ih]

/-- The canonical forms of expressions, one by one. -/
theorem simplifyAll_eq_ok_iff {es rs : List Expr} :
    simplifyAll es = .ok rs ↔ List.Forall₂ (fun e r => e.simplify = .ok r) es rs := by
  rw [simplifyAll_eq_mapM, mapM_eq_ok_iff]

/-- The canonical form of an expression is made from those of its children. -/
inductive Simplified : Expr → Expr → Prop where
  | num (q : Rat) : Simplified (num q) (num q)
  | const (c : Constant) : Simplified (const c) (const c)
  | var (x : String) : Simplified (var x) (var x)
  | sum {ts rs : List Expr} (h : List.Forall₂ (fun t r => t.simplify = .ok r) ts rs)
      (ho : (Canonical.sum rs).hasOrder = true) : Simplified (sum ts) (Canonical.sum rs)
  | product {fs rs : List Expr} {r : Expr} (h : List.Forall₂ (fun f r => f.simplify = .ok r) fs rs)
      (hr : Canonical.product rs = .ok r) : Simplified (product fs) r
  | power {b e b' e' r : Expr} (hb : b.simplify = .ok b') (he : e.simplify = .ok e')
      (hr : Canonical.power b' e' = .ok r) : Simplified (power b e) r
  | unary {f : UnaryFunction} {x x' r : Expr} (hx : x.simplify = .ok x')
      (hr : Canonical.unary f x' = .ok r) : Simplified (unary f x) r
  | log {x b x' b' r : Expr} (hx : x.simplify = .ok x') (hb : b.simplify = .ok b')
      (hr : Canonical.log x' b' = .ok r) : Simplified (log x b) r
  | mod {x d x' d' r : Expr} (hx : x.simplify = .ok x') (hd : d.simplify = .ok d')
      (hr : Canonical.mod x' d' = .ok r) : Simplified (mod x d) r
  | angle {f : AngleFunction} {x x' r : Expr} {m : Option String} (hx : x.simplify = .ok x')
      (hr : Canonical.angle f x' m = .ok r) : Simplified (angle f x m) r

/-- An expression has a canonical form exactly if it can be made from those of its children. -/
theorem simplify_eq_ok_iff : e.simplify = .ok r ↔ Simplified e r := by
  constructor
  · intro h
    cases e with
    | num q => exact Except.ok.inj h ▸ .num q
    | const c => exact Except.ok.inj h ▸ .const c
    | var x => exact Except.ok.inj h ▸ .var x
    | sum ts =>
      obtain ⟨rs, hrs, hr⟩ := bind_eq_ok_iff.mp (by rwa [simplify] at h)
      obtain ⟨rfl, ho⟩ := inOrder_eq_ok_iff.mp hr
      exact .sum (simplifyAll_eq_ok_iff.mp hrs) ho
    | product fs =>
      obtain ⟨rs, hrs, hr⟩ := bind_eq_ok_iff.mp (by rwa [simplify] at h)
      exact .product (simplifyAll_eq_ok_iff.mp hrs) hr
    | power b e =>
      obtain ⟨b', hb, h⟩ := bind_eq_ok_iff.mp (by rwa [simplify] at h)
      obtain ⟨e', he, hr⟩ := bind_eq_ok_iff.mp h
      exact .power hb he hr
    | unary f x =>
      obtain ⟨x', hx, hr⟩ := bind_eq_ok_iff.mp (by rwa [simplify] at h)
      exact .unary hx hr
    | log x b =>
      obtain ⟨x', hx, h⟩ := bind_eq_ok_iff.mp (by rwa [simplify] at h)
      obtain ⟨b', hb, hr⟩ := bind_eq_ok_iff.mp h
      exact .log hx hb hr
    | mod x d =>
      obtain ⟨x', hx, h⟩ := bind_eq_ok_iff.mp (by rwa [simplify] at h)
      obtain ⟨d', hd, hr⟩ := bind_eq_ok_iff.mp h
      exact .mod hx hd hr
    | angle f x m =>
      obtain ⟨x', hx, hr⟩ := bind_eq_ok_iff.mp (by rwa [simplify] at h)
      exact .angle hx hr
  · intro h
    cases h with
    | num q | const c | var x => rfl
    | sum hrs ho =>
      rw [simplify, simplifyAll_eq_ok_iff.mpr hrs]
      exact inOrder_eq_ok_iff.mpr ⟨rfl, ho⟩
    | product hrs hr =>
      rw [simplify, simplifyAll_eq_ok_iff.mpr hrs]
      exact hr
    | power hb he hr =>
      rw [simplify]
      exact bind_eq_ok_iff.mpr ⟨_, hb, bind_eq_ok_iff.mpr ⟨_, he, hr⟩⟩
    | unary hx hr =>
      rw [simplify, hx]
      exact hr
    | log hx hb hr =>
      rw [simplify]
      exact bind_eq_ok_iff.mpr ⟨_, hx, bind_eq_ok_iff.mpr ⟨_, hb, hr⟩⟩
    | mod hx hd hr =>
      rw [simplify]
      exact bind_eq_ok_iff.mpr ⟨_, hx, bind_eq_ok_iff.mpr ⟨_, hd, hr⟩⟩
    | angle hx hr =>
      rw [simplify, hx]
      exact hr

/-- A canonical form is settled. -/
theorem settled_simplify (h : e.simplify = .ok r) : r.IsSettled := by
  induction e using induction_on_children generalizing r with
  | step e ih =>
    -- By induction, all canonical forms of children are settled.
    have all {es rs : List Expr} (hes : ∀ x ∈ es, x ∈ e.children)
        (hrs : List.Forall₂ (fun e r => e.simplify = .ok r) es rs) : ∀ r ∈ rs, r.IsSettled := by
      intro r hr
      obtain ⟨x, hx, hxr⟩ := exists_of_mem_forall₂ hrs hr
      exact ih x (hes x hx) hxr
    cases simplify_eq_ok_iff.mp h with
    | num q => exact settled_num q
    | const c => exact settled_const c
    | var x => exact settled_var x
    | sum hrs ho => exact Canonical.settled_sum (all (fun _ h => h) hrs) ho
    | product hrs hr => exact Canonical.settled_product (all (fun _ h => h) hrs) hr
    | power hb he hr =>
      exact Canonical.settled_power (ih _ (by simp) hb) (ih _ (by simp) he) hr
    | unary hx hr => exact Canonical.settled_unary (ih _ (by simp) hx) hr
    | log hx hb hr =>
      exact Canonical.settled_log (ih _ (by simp) hx) (ih _ (by simp) hb) hr
    | mod hx hd hr =>
      exact Canonical.settled_mod (ih _ (by simp) hx) (ih _ (by simp) hd) hr
    | angle hx hr => exact Canonical.settled_angle (ih _ (by simp) hx) hr

/-- Canonical forms are settled, one by one. -/
theorem settled_of_forall₂ {es rs : List Expr}
    (h : List.Forall₂ (fun e r => e.simplify = .ok r) es rs) : ∀ r ∈ rs, r.IsSettled := by
  intro r hr
  obtain ⟨e, -, he⟩ := exists_of_mem_forall₂ h hr
  exact settled_simplify he

/-! ## Normality -/

/-- In a settled product whose factors have different bases the order is strict. -/
theorem increasing_of_haveDistinctBases {fs : List Expr} (h : (product fs).IsSettled)
    (hd : HaveDistinctBases fs) : fs.Pairwise (· < ·) := by
  obtain ⟨hr, -, hs⟩ := settled_product_iff.mp h
  refine increasing_of_distinct hr.ordered (areDistinct_of_nonNumbers hr.one_num ?_)
  refine areDistinct_of_base hd fun a ha b hb => ?_
  exact (hs a (mem_of_mem_nonNumbers ha)).eq_of_key_eq (hs b (mem_of_mem_nonNumbers hb))

/-- A settled expression is normal exactly if the factors of all products have different bases. -/
theorem IsSettled.isNormal_iff (h : r.IsSettled) : r.IsNormal ↔ r.HasDistinctBases := by
  constructor
  · intro hn
    refine hn.mono fun n hn => ?_
    cases n with
    | product fs => exact hn.2.2
    | _ => trivial
  · intro hd
    refine (Everywhere.and_iff.mpr ⟨h.everywhere, hd⟩).mono fun n hn => ?_
    obtain ⟨hs, hd⟩ := hn
    cases n with
    | product fs => exact ⟨hs.here.1, increasing_of_haveDistinctBases hs hd, hd⟩
    | unary f x => cases f <;> exact hs.here.1
    | _ => exact hs.here.1

/-- A canonical form keeps at every node what it is meant to keep, up to equal bases in a product;
all of it exactly if the factors of every product have different bases. -/
theorem isReduced_and_isNormal_iff (h : e.simplify = .ok r) :
    r.IsReduced ∧ (r.IsNormal ↔ r.HasDistinctBases) := by
  have hs := settled_simplify h
  exact ⟨hs.mono fun _ hn => hn.1, hs.isNormal_iff⟩

/-- A variable added to itself comes to twice the variable. -/
theorem isReduced_and_isNormal_iff_double :
    ∃ r, (sum [var "x", var "x"]).simplify = .ok r ∧ r.IsReduced ∧
      (r.IsNormal ↔ r.HasDistinctBases) := by
  have hx : (var "x").simplify = .ok (var "x") := rfl
  have h := simplify_eq_ok_iff.mpr (.sum (.cons hx (.cons hx .nil)) (by with_unfolding_all rfl))
  exact ⟨_, h, isReduced_and_isNormal_iff h⟩

/-- The product `(-x)^(1/2) * (-x)^(3/2) * x`. -/
def unmerged : Expr :=
  product [power (unary .neg (var "x")) (num (1 / 2)), power (unary .neg (var "x")) (num (3 / 2)),
    var "x"]

/-- The powers of `-x` come down to the single factor `x^2`, and `x` is left beside it. -/
theorem simplify_unmerged :
    unmerged.simplify = .ok (product [var "x", power (var "x") (num 2)]) := by
  let p := product [num (-1), var "x"]
  let fs := [power p (num (1 / 2)), power p (num (3 / 2)), var "x"]
  have hneg : (unary .neg (var "x")).simplify = .ok p := by
    refine simplify_eq_ok_iff.mpr (.unary rfl ?_)
    show Canonical.product [num (-1), var "x"] = .ok p
    rw [Canonical.product_eq]
    with_unfolding_all rfl
  have hroot (q : Rat) (h0 : (num q).isZero = false) (h1 : (num q).isOne = false)
      (hi : (num q).isInteger = false) :
      (power (unary .neg (var "x")) (num q)).simplify = .ok (power p (num q)) :=
    simplify_eq_ok_iff.mpr
      (.power hneg rfl (Canonical.Raised.eq_ok (.stays h0 h1 rfl (by simp [p]) (fun _ => hi) rfl)))
  have hsquare : Canonical.power p (num 2) = .ok (power (var "x") (num 2)) := by
    have hone : Canonical.power (num (-1)) (num 2) = .ok (num 1) := by
      rw [Canonical.power_eq]
      with_unfolding_all rfl
    have hx : Canonical.power (var "x") (num 2) = .ok (power (var "x") (num 2)) := by
      rw [Canonical.power_eq]
      with_unfolding_all rfl
    have hr : Canonical.product [num 1, power (var "x") (num 2)] =
        .ok (power (var "x") (num 2)) := by
      rw [Canonical.product_eq]
      with_unfolding_all rfl
    exact Canonical.Raised.eq_ok
      (.factors (by decide) (by decide) _ _ rfl rfl (.cons hone (.cons hx .nil)) hr)
  have hmerge : Canonical.mergePower (p, [num (3 / 2), num (1 / 2)]) =
      .ok (power (var "x") (num 2)) := by
    have hsum : Canonical.sum [num (3 / 2), num (1 / 2)] = num 2 := by with_unfolding_all rfl
    rw [Canonical.mergePower_of_two_le (by decide), hsum]
    exact hsquare
  have hms : List.Forall₂ (fun g m => Canonical.mergePower g = .ok m) (powersOf (opened fs))
      [var "x", power (var "x") (num 2)] :=
    .cons rfl (.cons hmerge .nil)
  have h1 := hroot (1 / 2) (by decide +kernel) (by decide +kernel) (by decide +kernel)
  have h2 := hroot (3 / 2) (by decide +kernel) (by decide +kernel) (by decide +kernel)
  refine simplify_eq_ok_iff.mpr (.product (.cons h1 (.cons h2 (.cons rfl .nil))) ?_)
  have hc : coefficientOf (opened fs) = 1 := by with_unfolding_all rfl
  have hone : (1 : Rat) * coefficientOf [var "x", power (var "x") (num 2)] = 1 := mul_one 1
  have he : ¬ Canonical.Expanded (powersOf (opened fs)) [var "x", power (var "x") (num 2)] := by
    rintro ⟨-, h⟩
    cases h
  rw [Canonical.product_eq_multiply (by rw [hc]; exact one_ne_zero) hms, hc]
  refine Canonical.Multiplied.eq_ok (.gather he ?_ ?_ ?_)
  · rw [hone]
    rfl
  · rw [hone]
    rfl
  · rw [hone]
    rfl

/-- The two factors that are left have one base. -/
theorem not_hasDistinctBases_unmerged :
    ¬ (product [var "x", power (var "x") (num 2)]).HasDistinctBases := by
  intro h
  have hx : base (var "x") = base (power (var "x") (num 2)) := rfl
  have hsame : (base (var "x")).same (base (power (var "x") (num 2))) = false :=
    (List.pairwise_cons.mp h.here).1 _ (List.mem_singleton.mpr rfl)
  rw [← hx] at hsame
  cases hsame

/-- The canonical form of `unmerged` is not normal: its factors have one base. -/
theorem unmerged_not_normal : ∃ r, unmerged.simplify = .ok r ∧ ¬ r.IsNormal :=
  ⟨_, simplify_unmerged, fun h =>
    not_hasDistinctBases_unmerged ((settled_simplify simplify_unmerged).isNormal_iff.mp h)⟩

end StackAlgebra.Expr
