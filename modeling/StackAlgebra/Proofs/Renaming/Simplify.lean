import StackAlgebra.Proofs.Renaming.Function
import StackAlgebra.Proofs.NormalForm.Comparable
import StackAlgebra.Proofs.NormalForm.Multiple

/-!
# Canonical forms under new names

The canonical order asks for the names of variables, and so decides where terms and factors stand.
It decides nothing else: under injective new names, an expression comes to the canonical form that
it had, with the new names in it (`simplify_rename`). Only where some functions of angles have a
measure and others have none may terms have an order under some names and none under others
(`simplify_mixed`).
-/

namespace StackAlgebra.Expr

open StackAlgebra.Canonical (Reaches Orders reaches_mapM_map reaches_inOrder)

variable {s : String → String} {e r : Expr} {es rs : List Expr}

/-! ## Simplification in step -/

/-- Expressions come to their relabelled canonical forms one by one. -/
theorem reaches_simplifyAll (hrs : List.Forall₂ (fun e r => e.simplify = .ok r) es rs)
    (h : ∀ e ∈ es, ∀ r, e.simplify = .ok r → Reaches (e.rename s).simplify (r.relabel s)) :
    Reaches (simplifyAll (renameAll s es)) (rs.map (relabel s)) := by
  rw [simplifyAll_eq_mapM, renameAll_eq_map]
  exact reaches_mapM_map hrs h

/-- Under injective new names an expression comes to its relabelled canonical form. -/
theorem reaches_simplify (hs : s.Injective) (h : e.simplify = .ok r) :
    Reaches (e.rename s).simplify (r.relabel s) := by
  induction e using induction_on_children generalizing r with
  | step e ih =>
    cases simplify_eq_ok_iff.mp h with
    | num _ | const _ | var _ => exact .inl rfl
    | sum hrs ho =>
      rw [rename, simplify]
      refine (reaches_simplifyAll hrs fun c hc r hr => ih c hc hr).bind ?_
      rw [Canonical.sum_relabel hs (settled_of_forall₂ hrs)]
      exact reaches_inOrder _
    | product hrs hr =>
      rw [rename, simplify]
      refine (reaches_simplifyAll hrs fun c hc r hr => ih c hc hr).bind ?_
      exact Canonical.reaches_product hs (settled_of_forall₂ hrs) hr
    | power hb he hr =>
      rw [rename, simplify]
      refine (ih _ (by simp) hb).bind ((ih _ (by simp) he).bind ?_)
      exact Canonical.reaches_power hs (settled_simplify hb) (settled_simplify he) hr
    | unary hx hr =>
      rw [rename, simplify]
      exact (ih _ (by simp) hx).bind (Canonical.reaches_unary hs (settled_simplify hx) hr)
    | log hx hb hr =>
      rw [rename, simplify]
      exact (ih _ (by simp) hx).bind ((ih _ (by simp) hb).bind (.inl (Canonical.log_relabel hs hr)))
    | mod hx hd hr =>
      rw [rename, simplify]
      exact (ih _ (by simp) hx).bind ((ih _ (by simp) hd).bind (.inl (Canonical.mod_relabel hs hr)))
    | angle hx hr =>
      rw [rename, simplify]
      exact (ih _ (by simp) hx).bind (Canonical.reaches_angle hs (settled_simplify hx) hr)

/-- What has a canonical form under injective new names had one before, unless it has no order. -/
theorem reaches_of_simplify_rename (hs : s.Injective) (h : (e.rename s).simplify = .ok r) :
    ∃ r, Reaches e.simplify r := by
  -- The new names are undone by a permutation that agrees with them on the names in `e`.
  obtain ⟨σ, hσ⟩ := exists_perm_rename hs e
  rw [hσ] at h
  have hback := reaches_simplify σ.symm.injective h
  rw [rename_rename, Equiv.symm_comp_self, rename_id] at hback
  exact ⟨_, hback⟩

/-- Functions of angles keep their measures under new names. -/
theorem IsMeasured.rename (h : e.IsMeasured) (s : String → String) : (e.rename s).IsMeasured := by
  refine h.map (children_rename s) fun n hn => ?_
  cases n with
  | angle f x m => exact hn
  | _ => trivial

/-- Under injective new names, an expression has a canonical form exactly if it had one before, and
the two are the same but for the names, unless one of them is refused because its terms or factors
have no order. None is refused so where no measure is missing. -/
theorem simplify_rename (hs : s.Injective) :
    (∀ r r', e.simplify = .ok r → (e.rename s).simplify = .ok r' → r'.same (r.rename s) = true) ∧
      (e.simplify ≠ .error .incomparable → (e.rename s).simplify ≠ .error .incomparable →
        ((∃ r', (e.rename s).simplify = .ok r') ↔ ∃ r, e.simplify = .ok r)) ∧
      (e.IsMeasured → e.simplify ≠ .error .incomparable ∧
        (e.rename s).simplify ≠ .error .incomparable) := by
  refine ⟨fun r r' hr hr' => ?_, fun he hes => ⟨?_, ?_⟩, fun hm => ?_⟩
  · rw [(reaches_simplify hs hr).eq_of_eq_ok hr', same_iff, key_relabel]
  · rintro ⟨r', hr'⟩
    obtain ⟨r, hr⟩ := reaches_of_simplify_rename hs hr'
    exact ⟨r, hr.resolve_right he⟩
  · rintro ⟨r, hr⟩
    exact ⟨_, (reaches_simplify hs hr).resolve_right hes⟩
  · exact ⟨hm.orders_simplify, (hm.rename s).orders_simplify⟩

/-- Twice `x` and once `y` is once `x` and twice `y` with the names exchanged. -/
theorem simplify_rename_swap :
    let e := sum [var "x", var "y", var "x"]
    let s := Equiv.swap "x" "y"
    e.IsMeasured ∧ ∃ r r', e.simplify = .ok r ∧ (e.rename s).simplify = .ok r' ∧
        r'.same (r.rename s) = true := by
  intro e s
  have hm : e.IsMeasured := by simp [e]
  obtain ⟨hsame, hiff, horders⟩ := simplify_rename (e := e) s.injective
  obtain ⟨r, hr⟩ : ∃ r, e.simplify = .ok r :=
    ⟨_, simplify_eq_ok_iff.mpr (.sum (.cons rfl (.cons rfl (.cons rfl .nil))) (by decide +kernel))⟩
  obtain ⟨r', hr'⟩ := (hiff (horders hm).1 (horders hm).2).mpr ⟨r, hr⟩
  exact ⟨hm, r, r', hr, hr', hsame r r' hr hr'⟩

/-! ## Missing measures -/

/-- A sum of two terms that differ in nothing but a measure, and none, where the name `x` comes
before the name `y`. -/
def mixed (x y : String) : Expr :=
  sum [unary .abs (sum [num 1, angle .asin (var x) none, angle .asin (var y) (some "deg")]),
    unary .abs (sum [num 1, angle .asin (var x) (some "deg")])]

/-- A variable is no tabulated sine. -/
theorem angle?_var (x : String) :
    Canonical.SpecialAngle.angle? (var x) Canonical.SpecialAngle.sines = .ok none := by
  -- A row of the table is passed over if neither its value nor the opposite one is the variable.
  have step {t : Rat} {v w : Expr} {table : List (Rat × Expr)} (hv : v.same (var x) = false)
      (hw : Canonical.product [num (-1), v] = .ok w) (hwx : w.same (var x) = false) :
      Canonical.SpecialAngle.angle? (var x) ((t, v) :: table) =
        Canonical.SpecialAngle.angle? (var x) table := by
    rw [Canonical.SpecialAngle.angle?, hv, hw]
    dsimp only [bind, Except.bind]
    rw [hwx]
    rfl
  have hnum (q : Rat) : Canonical.product [num (-1), num q] = .ok (num (-1 * q)) :=
    Canonical.product_num_num (-1) q
  have hmerge (n : Rat) : List.Forall₂ (fun g m => Canonical.mergePower g = .ok m)
      (Canonical.powersOf
        (Canonical.opened [num (-1), product [num (1 / 2), Canonical.SpecialAngle.root n]]))
      [Canonical.SpecialAngle.root n] := .cons (by with_unfolding_all rfl) .nil
  have hroot (n : Rat) :
      Canonical.product [num (-1), product [num (1 / 2), Canonical.SpecialAngle.root n]] =
        .ok (product [num (-1 / 2), Canonical.SpecialAngle.root n]) := by
    have hcoef : coefficientOf
        (Canonical.opened [num (-1), product [num (1 / 2), Canonical.SpecialAngle.root n]]) =
          -1 / 2 := by with_unfolding_all rfl
    rw [Canonical.product_eq_multiply (hcoef.trans_ne (by norm_num)) (hmerge n)]
    with_unfolding_all rfl
  rw [Canonical.SpecialAngle.sines, step rfl (hnum 0) rfl, step rfl (hnum _) rfl,
    step rfl (hroot 2) rfl, step rfl (hroot 3) rfl, step rfl (hnum 1) rfl]
  rfl

/-- The angle with a variable for its sine stands. -/
theorem simplify_asin_var (x : String) (m : Option String) :
    (angle .asin (var x) m).simplify = .ok (angle .asin (var x) m) := by
  have hspecial : Canonical.specialAngle? .asin (var x) = .ok none := angle?_var x
  show Canonical.toAngle .asin (var x) m = _
  unfold Canonical.toAngle
  exact Canonical.bind_eq_ok_iff.mpr ⟨(), rfl, Canonical.bind_eq_ok_iff.mpr ⟨none, hspecial, rfl⟩⟩

/-- With one name before the other the terms have no order, and with the names exchanged they
have. -/
theorem simplify_mixed : (mixed "a" "b").simplify = .error .incomparable ∧
    ∃ r, ((mixed "a" "b").rename (Equiv.swap "a" "b")).simplify = .ok r := by
  have habs {ts us : List Expr} (hts : (sum ts).simplify = .ok (sum us))
      (h : Canonical.abs (sum us) = .ok (unary .abs (sum us))) :
      (unary .abs (sum ts)).simplify = .ok (unary .abs (sum us)) :=
    simplify_eq_ok_iff.mpr (.unary hts h)
  have hshort (x : String) : (sum [num 1, angle .asin (var x) (some "deg")]).simplify =
      .ok (sum [num 1, angle .asin (var x) (some "deg")]) := by
    rw [simplify, simplifyAll_eq_ok_iff.mpr (.cons rfl (.cons (simplify_asin_var _ _) .nil))]
    with_unfolding_all rfl
  have hterms (x y : String) :
      simplifyAll [num 1, angle .asin (var x) none, angle .asin (var y) (some "deg")] =
        .ok [num 1, angle .asin (var x) none, angle .asin (var y) (some "deg")] :=
    simplifyAll_eq_ok_iff.mpr
      (.cons rfl (.cons (simplify_asin_var _ _) (.cons (simplify_asin_var _ _) .nil)))
  constructor
  · -- In both sums the arcsine of `a` comes first, and of the two measures of it one is missing.
    have hlong :
        (sum [num 1, angle .asin (var "a") none, angle .asin (var "b") (some "deg")]).simplify =
          .ok (sum [num 1, angle .asin (var "a") none, angle .asin (var "b") (some "deg")]) := by
      rw [simplify, hterms]
      with_unfolding_all rfl
    rw [mixed, simplify,
      simplifyAll_eq_ok_iff.mpr (.cons (habs hlong rfl) (.cons (habs (hshort "a") rfl) .nil))]
    with_unfolding_all rfl
  · -- Now the first arcsines are those of `a` and of `b`, which tells the sums apart before any
    -- measure is looked at.
    have hlong :
        (sum [num 1, angle .asin (var "b") none, angle .asin (var "a") (some "deg")]).simplify =
          .ok (sum [num 1, angle .asin (var "a") (some "deg"), angle .asin (var "b") none]) := by
      rw [simplify, hterms]
      with_unfolding_all rfl
    have hrename : (mixed "a" "b").rename (Equiv.swap "a" "b") = mixed "b" "a" := by
      with_unfolding_all rfl
    rw [hrename]
    refine ⟨_, simplify_eq_ok_iff.mpr
      (.sum (.cons (habs hlong rfl) (.cons (habs (hshort "b") rfl) .nil)) ?_)⟩
    with_unfolding_all rfl

/-- Where a measure is missing, an expression may have a canonical form under injective new names
and none before. -/
theorem not_simplify_rename_mixed :
    let s := Equiv.swap "a" "b"
    Function.Injective s ∧ (∃ r, ((mixed "a" "b").rename s).simplify = .ok r) ∧
      ¬ ∃ r, (mixed "a" "b").simplify = .ok r := by
  intro s
  obtain ⟨herror, hr⟩ := simplify_mixed
  refine ⟨s.injective, hr, ?_⟩
  rintro ⟨r, hr⟩
  rw [herror] at hr
  cases hr

end StackAlgebra.Expr
