import StackAlgebra.Proofs.NormalForm.Simplify
import StackAlgebra.Proofs.NormalForm.Bulk

/-!
# Canonical forms that stay

A settled expression in which the factors of every product have different bases is its own canonical
form (`simplify_fixed`). Any other has a canonical form of less bulk, if it has one at all
(`bulk_simplify`): the equal bases are merged, and nothing else can make up for it. So a canonical
form is its own canonical form exactly if the bases in its products differ (`simplify_fixed_iff`).
-/

namespace StackAlgebra.Expr

open StackAlgebra.Canonical (hasMerged powersOf opened)

variable {e r : Expr} {es rs fs : List Expr}

/-- A settled expression whose products have factors with different bases is its own canonical
form. -/
theorem simplify_fixed (hs : e.IsSettled) (hd : e.HasDistinctBases) : e.simplify = .ok e := by
  induction e using induction_on_children with
  | step e ih =>
    have child {c : Expr} (hc : c ∈ e.children) : c.simplify = .ok c :=
      ih c hc (hs.child hc) (hd.child hc)
    have all {es : List Expr} (hes : ∀ x ∈ es, x ∈ e.children) :
        List.Forall₂ (fun e r => e.simplify = .ok r) es es :=
      List.forall₂_same.mpr fun x hx => child (hes x hx)
    rw [simplify_eq_ok_iff]
    cases e with
    | num q => exact .num q
    | const c => exact .const c
    | var x => exact .var x
    | sum ts =>
      have hsum : Canonical.sum ts = sum ts := Canonical.sum_fixed hs
      have ho : (Canonical.sum ts).hasOrder = true := by
        rw [hsum]
        exact hs.here.2
      have h := Simplified.sum (all fun x (hx : x ∈ ts) => hx) ho
      rwa [hsum] at h
    | product fs => exact .product (all fun _ hx => hx) (Canonical.product_fixed hs hd.here)
    | power b a =>
      exact .power (child (by simp)) (child (by simp)) (Canonical.power_fixed hs)
    | unary f x =>
      obtain ⟨rfl, -, -⟩ := settled_unary_iff.mp hs
      exact .unary (child (by simp)) (Canonical.abs_fixed hs)
    | log x b => exact .log (child (by simp)) (child (by simp)) hs.here.2
    | mod x d => exact .mod (child (by simp)) (child (by simp)) hs.here.2
    | angle f x m => exact .angle (child (by simp)) hs.here.2

/-! ## Equal bases -/

/-- Factors that have equal bases make a merged base. -/
theorem hasMerged_of_not_distinct (h : (product fs).IsSettled) (hd : ¬ HaveDistinctBases fs) :
    hasMerged (powersOf (opened fs)) = true := by
  by_contra hm
  -- The opened factors are the factors in another order, and so are their bases.
  have hp := Canonical.opened_perm_self h.here.1.not_isProduct
  have hd' := Canonical.distinct_of_not_hasMerged (Bool.not_eq_true _ ▸ hm)
  exact hd (AreDistinct.perm hd' ((hp.filter _).map base))

/-- Expressions that have some bulk are no more than their bulk. -/
theorem length_le_bulks (h : ∀ e ∈ es, 1 ≤ e.bulk) : es.length ≤ bulks es := by
  induction es with
  | nil => exact Nat.le_refl 0
  | cons e es ih =>
    have h1 := h e List.mem_cons_self
    have h2 := ih fun d hd => h d (List.mem_cons_of_mem _ hd)
    rw [List.length_cons, bulks_cons]
    omega

/-- Where bases are equal there are two atoms. -/
theorem two_le_bulk (hs : e.IsSettled) (hd : ¬ e.HasDistinctBases) : 2 ≤ e.bulk := by
  induction e using induction_on_children with
  | step e ih =>
    rcases Everywhere.not_everywhere hd with hn | ⟨c, hc, hcd⟩
    · cases e with
      | product fs =>
        obtain ⟨-, -, hfs⟩ := settled_product_iff.mp hs
        -- Two factors have one base, and each of them has some bulk.
        have hlen : 2 ≤ (nonNumbers fs).length := by
          by_contra hlt
          refine hn ?_
          show AreDistinct ((nonNumbers fs).map base)
          match nonNumbers fs, hlt with
          | [], _ => exact .nil
          | [f], _ => exact List.pairwise_singleton _ _
          | _ :: _ :: _, hlt => exact absurd (by simp) hlt
        have hbulk := length_le_bulks fun f (hf : f ∈ nonNumbers fs) =>
          (hfs f (mem_of_mem_nonNumbers hf)).bulk_pos (isNum_of_mem_nonNumbers hf)
        rw [bulks_nonNumbers] at hbulk
        exact hlen.trans hbulk
      | _ => exact absurd trivial hn
    · exact (ih c hc (hs.child hc) hcd).trans (bulk_le_of_mem_children hc)

/-- Where bases are equal, but not those of the expression itself, they are so in a child. -/
theorem exists_child_of_not_distinct (hp : e.isProduct = false) (hd : ¬ e.HasDistinctBases) :
    ∃ c ∈ e.children, ¬ c.HasDistinctBases := by
  rcases Everywhere.not_everywhere hd with hn | hex
  · cases e with
    | product fs => cases hp
    | _ => exact absurd trivial hn
  · exact hex

/-- What loses no bulk one by one loses none together, and loses some if one of them does. -/
theorem bulks_simplify_le (hr : List.Forall₂ (fun e r => e.simplify = .ok r) es rs)
    (h : ∀ e ∈ es, ∀ r, e.simplify = .ok r →
      r.bulk ≤ e.bulk ∧ (¬ e.HasDistinctBases → r.bulk < e.bulk)) :
    bulks rs ≤ bulks es ∧ ((∃ e ∈ es, ¬ e.HasDistinctBases) → bulks rs < bulks es) := by
  induction hr with
  | nil => simp
  | @cons e r es rs her _ ih =>
    obtain ⟨h1, h2⟩ := h e List.mem_cons_self r her
    obtain ⟨h3, h4⟩ := ih fun d hd => h d (List.mem_cons_of_mem _ hd)
    rw [bulks_cons, bulks_cons]
    refine ⟨by omega, ?_⟩
    rintro ⟨d, hd, hdist⟩
    rcases List.mem_cons.mp hd with rfl | hd
    · have := h2 hdist
      omega
    · have := h4 ⟨d, hd, hdist⟩
      omega

/-- Where settled factors have no equal bases in them, but among them, their product loses bulk. -/
theorem bulk_product_lt_of_not_distinct (hs : (product fs).IsSettled)
    (hd : ¬ (product fs).HasDistinctBases) (hfs : ∀ f ∈ fs, f.HasDistinctBases)
    (hrs : List.Forall₂ (fun f r => f.simplify = .ok r) fs rs) (hr : Canonical.product rs = .ok r) :
    r.bulk < bulks fs := by
  -- The factors stay as they are, and some of their bases merge.
  have heq : fs = rs := by
    have hsame : List.Forall₂ (· = ·) fs rs := by
      refine Canonical.forall₂_imp_of_mem hrs fun f hf r hr => ?_
      rw [simplify_fixed (hs.child hf) (hfs f hf)] at hr
      exact Except.ok.inj hr
    rwa [List.forall₂_eq_eq_eq] at hsame
  have hn : ¬ HaveDistinctBases fs := by
    rcases Everywhere.not_everywhere hd with hn | ⟨f, hf, hfd⟩
    · exact hn
    · exact absurd (hfs f hf) hfd
  rw [← heq] at hr
  exact Canonical.bulk_product_lt (fun f hf => hs.child hf) hr (hasMerged_of_not_distinct hs hn)

/-- The canonical form of a settled expression has no more bulk, and less where bases are equal. -/
theorem bulk_simplify (hs : e.IsSettled) (h : e.simplify = .ok r) :
    r.bulk ≤ e.bulk ∧ (¬ e.HasDistinctBases → r.bulk < e.bulk) := by
  induction e using induction_on_children generalizing r with
  | step e ih =>
    have child {c c' : Expr} (hc : c ∈ e.children) (h : c.simplify = .ok c') :=
      ih c hc (hs.child hc) h
    -- The children lose no bulk together, and some where bases are equal in one of them.
    have below {rs : List Expr}
        (hrs : List.Forall₂ (fun e r => e.simplify = .ok r) e.children rs) :=
      bulks_simplify_le hrs fun c hc r hr => child hc hr
    cases simplify_eq_ok_iff.mp h with
    | num q => exact ⟨Nat.le_refl _, fun hd => absurd (.intro trivial (by simp)) hd⟩
    | const c => exact ⟨Nat.le_refl _, fun hd => absurd (.intro trivial (by simp)) hd⟩
    | var x => exact ⟨Nat.le_refl _, fun hd => absurd (.intro trivial (by simp)) hd⟩
    | sum hrs ho =>
      obtain ⟨h1, h2⟩ := below hrs
      have h3 := Canonical.bulk_sum_le (settled_of_forall₂ hrs)
      exact ⟨h3.trans h1, fun hd => h3.trans_lt (h2 (exists_child_of_not_distinct rfl hd))⟩
    | @product fs rs r hrs hr =>
      obtain ⟨h1, h2⟩ := below hrs
      have h3 := Canonical.bulk_product_le (settled_of_forall₂ hrs) hr
      refine ⟨h3.trans h1, fun hd => ?_⟩
      by_cases hex : ∃ f ∈ fs, ¬ f.HasDistinctBases
      · exact h3.trans_lt (h2 hex)
      · push Not at hex
        exact bulk_product_lt_of_not_distinct hs hd hex hrs hr
    | @power b a b' a' r hb ha hr =>
      have hbc : b ∈ (power b a).children := by simp
      have hac : a ∈ (power b a).children := by simp
      obtain ⟨h1, h2⟩ := child hbc hb
      obtain ⟨h3, h4⟩ := child hac ha
      have h5 := Canonical.bulk_power_le (settled_simplify hb) (settled_simplify ha) hr
      rw [bulk_power] at h5 ⊢
      refine ⟨by omega, fun hd => ?_⟩
      obtain ⟨c, hc, hcd⟩ := exists_child_of_not_distinct rfl hd
      simp only [children_power, List.mem_cons, List.not_mem_nil, or_false] at hc
      rcases hc with rfl | rfl
      · -- The base counts as itself, since it has two atoms.
        have h6 := h2 hcd
        have h7 := two_le_bulk (hs.child hbc) hcd
        omega
      · have h6 := h4 hcd
        omega
    | unary hx hr =>
      obtain ⟨rfl, -, -⟩ := settled_unary_iff.mp hs
      obtain ⟨h1, h2⟩ := below (.cons hx .nil)
      have h3 := Canonical.bulk_abs_le (settled_simplify hx) hr
      simp only [children_unary, bulks_cons, bulks_nil, bulk_unary] at h1 h2 ⊢
      refine ⟨by omega, fun hd => ?_⟩
      have h4 := h2 (exists_child_of_not_distinct rfl hd)
      omega
    | log hx hb hr =>
      obtain ⟨h1, h2⟩ := below (.cons hx (.cons hb .nil))
      have h3 := Canonical.bulk_log_le hr
      simp only [children_log, bulks_cons, bulks_nil, bulk_log] at h1 h2 ⊢
      refine ⟨by omega, fun hd => ?_⟩
      have h4 := h2 (exists_child_of_not_distinct rfl hd)
      omega
    | mod hx hd' hr =>
      obtain ⟨h1, h2⟩ := below (.cons hx (.cons hd' .nil))
      have h3 := Canonical.bulk_mod_le hr
      simp only [children_mod, bulks_cons, bulks_nil, bulk_mod] at h1 h2 ⊢
      refine ⟨by omega, fun hd => ?_⟩
      have h4 := h2 (exists_child_of_not_distinct rfl hd)
      omega
    | angle hx hr =>
      obtain ⟨h1, h2⟩ := below (.cons hx .nil)
      have h3 := Canonical.bulk_angle_le hr
      simp only [children_angle, bulks_cons, bulks_nil, bulk_angle] at h1 h2 ⊢
      refine ⟨by omega, fun hd => ?_⟩
      have h4 := h2 (exists_child_of_not_distinct rfl hd)
      omega

/-- A settled expression is its own canonical form exactly if the factors of all its products have
different bases. -/
theorem simplify_eq_self_iff (hs : e.IsSettled) : e.simplify = .ok e ↔ e.HasDistinctBases := by
  constructor
  · intro h
    -- With equal bases the canonical form would have less bulk than itself.
    by_contra hd
    exact lt_irrefl _ ((bulk_simplify hs h).2 hd)
  · exact simplify_fixed hs

/-- A canonical form is its own canonical form exactly if the factors of all its products have
different bases. -/
theorem simplify_fixed_iff (h : e.simplify = .ok r) :
    r.simplify = .ok r ↔ r.HasDistinctBases :=
  simplify_eq_self_iff (settled_simplify h)

/-- The sum of two variables is put in order. -/
theorem simplify_fixed_iff_sorted :
    ∃ r, (sum [var "y", var "x"]).simplify = .ok r ∧ (r.simplify = .ok r ↔ r.HasDistinctBases) := by
  have hx (x : String) : (var x).simplify = .ok (var x) := rfl
  have h :=
    simplify_eq_ok_iff.mpr (.sum (.cons (hx "y") (.cons (hx "x") .nil)) (by with_unfolding_all rfl))
  exact ⟨_, h, simplify_fixed_iff h⟩

/-- The factors that are left apart in the canonical form of `unmerged` merge the next time. -/
theorem simplify_unmerged_again : ∃ r, unmerged.simplify = .ok r ∧
    r.simplify = .ok (power (var "x") (num 3)) ∧ r.simplify ≠ .ok r := by
  have hx (k : Rat) (h0 : (num k).isZero = false) (h1 : (num k).isOne = false) :
      Canonical.power (var "x") (num k) = .ok (power (var "x") (num k)) :=
    Canonical.Raised.eq_ok (.stays h0 h1 rfl (by simp) (by simp [isProduct]) rfl)
  have hmerge : Canonical.mergePower (var "x", [num 2, num 1]) = .ok (power (var "x") (num 3)) := by
    have hsum : Canonical.sum [num 2, num 1] = num 3 := by with_unfolding_all rfl
    rw [Canonical.mergePower_of_two_le (by decide), hsum]
    exact hx 3 (by decide) (by decide)
  have hms : List.Forall₂ (fun g m => Canonical.mergePower g = .ok m)
      (powersOf (opened [var "x", power (var "x") (num 2)])) [power (var "x") (num 3)] :=
    .cons hmerge .nil
  have h2 : (power (var "x") (num 2)).simplify = .ok (power (var "x") (num 2)) :=
    simplify_eq_ok_iff.mpr (.power rfl rfl (hx 2 (by decide) (by decide)))
  have h : (product [var "x", power (var "x") (num 2)]).simplify =
      .ok (power (var "x") (num 3)) := by
    refine simplify_eq_ok_iff.mpr (.product (.cons rfl (.cons h2 .nil)) ?_)
    rw [Canonical.product_eq_multiply (by decide) hms]
    with_unfolding_all rfl
  refine ⟨_, simplify_unmerged, h, fun hr => ?_⟩
  rw [h] at hr
  cases hr

end StackAlgebra.Expr
