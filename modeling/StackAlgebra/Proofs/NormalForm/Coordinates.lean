import StackAlgebra.Proofs.NormalForm.Linear

/-!
# Coordinates

A settled expression is a rational combination of the number one and of parts without coefficient,
of which no two are the same. Its coordinates are the coefficients that these have
(`Expr.coordinates`). They are linear forms (`isLinear_coordinates`), and a settled expression can
be told from its coordinates (`eq_of_coordinates_eq`).
-/

namespace StackAlgebra.Expr

/-- Terms with these parts beside their coefficients are like terms; numbers have no such part. -/
def areLike : Option Expr → Option Expr → Bool
  | none, none => true
  | some r, some s => r.same s
  | _, _ => false

/-- The coefficient in an expression of the part `k`, or of the number one for `none`. -/
def coordinates (e : Expr) (k : Option Expr) : Rat :=
  ((Canonical.summands e).map fun t => if areLike t.rest? k then t.splitCoefficient.1 else 0).sum

/-- Which of two parts comes first makes no difference. -/
theorem areLike_comm (k l : Option Expr) : areLike k l = areLike l k := by
  cases k with
  | none => cases l <;> rfl
  | some r =>
    cases l with
    | none => rfl
    | some s =>
      have swap {r s : Expr} (h : r.same s = true) : s.same r = true :=
        same_iff.mpr (same_iff.mp h).symm
      exact Bool.eq_iff_iff.mpr ⟨swap, swap⟩

/-- Every part is like itself. -/
theorem areLike_self (k : Option Expr) : areLike k k = true := by
  cases k with
  | none => rfl
  | some r => exact same_self r

end StackAlgebra.Expr

namespace StackAlgebra.Canonical

open StackAlgebra.Expr (num nonNumbers isNum rest? areLike coordinates AreDistinct)
open scoped List

variable {a b t u : Expr} {ts us : List Expr} {k : Option Expr}

/-! ## Terms -/

/-- A term is a number, or a coefficient other than zero and a part beside it. -/
theorem number_or_term (ht : t.IsSettled ∧ t.isSum = false) :
    (∃ q, t = num q) ∨ ∃ c r, c ≠ 0 ∧ r.IsMonic ∧ t = term c r := by
  cases hn : t.isNum with
  | true => exact .inl (Expr.exists_eq_num hn)
  | false => exact .inr (ht.1.exists_term hn ht.2)

/-- Like terms have one part beside their coefficients. -/
theorem rest?_eq_of_areLike (ht : t.IsSettled ∧ t.isSum = false)
    (hu : u.IsSettled ∧ u.isSum = false) (h : areLike (rest? t) (rest? u) = true) :
    rest? t = rest? u := by
  rcases number_or_term ht with ⟨p, rfl⟩ | ⟨c, r, -, hr, rfl⟩ <;>
    rcases number_or_term hu with ⟨q, rfl⟩ | ⟨d, s, -, hs, rfl⟩
  · rfl
  · rw [hs.rest?_term] at h
    cases h
  · rw [hr.rest?_term] at h
    cases h
  · rw [hr.rest?_term, hs.rest?_term] at h ⊢
    rw [(hr.settled.same_iff_eq hs.settled).mp h]

/-- Like terms with the same coefficient are equal. -/
theorem eq_of_areLike (ht : t.IsSettled ∧ t.isSum = false) (hu : u.IsSettled ∧ u.isSum = false)
    (h : areLike (rest? t) (rest? u) = true) (hc : t.splitCoefficient.1 = u.splitCoefficient.1) :
    t = u := by
  have hrest := rest?_eq_of_areLike ht hu h
  rcases number_or_term ht with ⟨p, rfl⟩ | ⟨c, r, -, hr, rfl⟩ <;>
    rcases number_or_term hu with ⟨q, rfl⟩ | ⟨d, s, -, hs, rfl⟩
  · exact congrArg num hc
  · rw [hs.rest?_term] at hrest
    cases hrest
  · rw [hr.rest?_term] at hrest
    cases hrest
  · rw [hr.rest?_term, hs.rest?_term] at hrest
    rw [hr.splitCoefficient_term, hs.splitCoefficient_term] at hc
    rw [Option.some.inj hrest, show c = d from hc]

/-! ## Linearity -/

/-- A single term has one coordinate. -/
theorem coordinates_of_not_isSum (h : t.isSum = false) :
    t.coordinates k = if areLike (rest? t) k then t.splitCoefficient.1 else 0 := by
  rw [coordinates, summands_of_not_isSum h, List.map_singleton, List.sum_singleton]

/-- The coordinate of a number is the number. -/
theorem coordinates_num (q : Rat) : (num q).coordinates k = if areLike none k then q else 0 :=
  coordinates_of_not_isSum rfl

/-- Zero has no coordinate other than zero. -/
theorem coordinates_zero : (num 0).coordinates = 0 := by
  funext k
  rw [coordinates_num, ite_self]
  rfl

/-- The coordinate of a term is its coefficient. -/
theorem coordinates_term {r : Expr} (hr : r.IsMonic) (c : Rat) :
    (term c r).coordinates k = if areLike (some r) k then c else 0 := by
  rw [coordinates_of_not_isSum (hr.kind_term c).2, hr.rest?_term, hr.splitCoefficient_term]

/-- Each coordinate is a linear form. -/
theorem isLinear_coordinates (k : Option Expr) :
    IsLinear (fun _ => True) fun e => e.coordinates k where
  domain := ⟨fun _ => trivial, by simp, fun _ _ => trivial, fun _ _ => trivial⟩
  num q := by rw [coordinates_num, coordinates_num, mul_ite, mul_one, mul_zero]
  term {r} hr _ c := by
    have hone : r.coordinates k = if areLike (some r) k then 1 else 0 := by
      rw [← coordinates_term hr 1, term, if_pos rfl]
    rw [coordinates_term hr, hone, mul_ite, mul_one, mul_zero]
  sum {ts} ht _ := by
    rw [coordinates, summands, summandsOf_of_not_isSum fun t h => (ht t h).2]
    exact congrArg List.sum
      (List.map_congr_left fun t h => (coordinates_of_not_isSum (ht t h).2).symm)

/-- The coordinates of a canonical sum are the sums of those of the expressions. -/
theorem coordinates_sum (h : ∀ t ∈ ts, t.IsSettled) :
    (sum ts).coordinates k = (ts.map fun t => t.coordinates k).sum :=
  (isLinear_coordinates k).canonicalSum fun t ht => ⟨h t ht, trivial⟩

/-! ## Independent terms -/

/-- Settled terms with coefficients other than zero, no two of them like terms. -/
structure AreIndependent (ts : List Expr) : Prop where
  terms : AreTerms ts
  ne_zero : ∀ t ∈ ts, t.splitCoefficient.1 ≠ 0
  unlike : ts.Pairwise fun t u => areLike (rest? t) (rest? u) = false

/-- Terms that differ in the parts beside their coefficients, at most one of them a number, are no
like terms. -/
theorem unlike_of_distinct (h : AreTerms ts) (hone : (ts.filter isNum).length ≤ 1)
    (hd : AreDistinct (ts.filterMap rest?)) :
    ts.Pairwise fun t u => areLike (rest? t) (rest? u) = false := by
  induction ts with
  | nil => exact .nil
  | cons t ts ih =>
    obtain ⟨ht, hts⟩ := List.forall_mem_cons.mp h
    rcases number_or_term ht with ⟨q, rfl⟩ | ⟨c, r, -, hr, rfl⟩
    · -- There is no other number.
      rw [List.filter_cons_of_pos rfl, List.length_cons] at hone
      have hnil : ts.filter isNum = [] := List.eq_nil_of_length_eq_zero (by omega)
      refine List.pairwise_cons.mpr ⟨fun u hu => ?_, ih hts (by simp [hnil]) hd⟩
      rcases number_or_term (hts u hu) with ⟨p, rfl⟩ | ⟨d, s, -, hs, rfl⟩
      · exact absurd rfl (List.filter_eq_nil_iff.mp hnil _ hu)
      · rw [hs.rest?_term]
        rfl
    · rw [List.filter_cons_of_neg (by simp [(hr.kind_term c).1])] at hone
      rw [List.filterMap_cons_some (hr.rest?_term c)] at hd
      obtain ⟨hne, hd⟩ := List.pairwise_cons.mp hd
      refine List.pairwise_cons.mpr ⟨fun u hu => ?_, ih hts hone hd⟩
      rw [hr.rest?_term]
      cases hu' : rest? u with
      | none => rfl
      | some s => exact hne s (List.mem_filterMap.mpr ⟨u, hu, hu'⟩)

/-- Merged terms are independent. -/
theorem areIndependent_mergedTerms (h : AreTerms ts) : AreIndependent (mergedTerms ts) := by
  obtain ⟨hone, h0⟩ := num_mem_mergedTerms h
  have hterms := areTerms_mergedTerms h
  refine ⟨hterms, fun t ht => ?_, unlike_of_distinct hterms hone (distinct_rests h)⟩
  rcases number_or_term (hterms t ht) with ⟨q, rfl⟩ | ⟨c, r, hc, hr, rfl⟩
  · exact h0 q ht
  · rwa [hr.splitCoefficient_term]

/-- The terms of a settled sum are independent. -/
theorem areIndependent_of_settled (hs : (Expr.sum ts).IsSettled) : AreIndependent ts := by
  obtain ⟨hn, -, hts⟩ := Expr.settled_sum_iff.mp hs
  have hterms : AreTerms ts := fun t ht => ⟨hts t ht, hn.not_isSum t ht⟩
  refine ⟨hterms, fun t ht => ?_, unlike_of_distinct hterms hn.one_num hn.distinct⟩
  rcases number_or_term (hterms t ht) with ⟨q, rfl⟩ | ⟨d, s, hd, hs, rfl⟩
  · exact hn.num_ne_zero q ht
  · rwa [hs.splitCoefficient_term]

/-- Independent terms add up at the part of each one to its coefficient. -/
theorem AreIndependent.sum_coordinates (h : AreIndependent ts) (ht : t ∈ ts) :
    (ts.map fun u => u.coordinates (rest? t)).sum = t.splitCoefficient.1 := by
  obtain ⟨l, r, rfl⟩ := List.append_of_mem ht
  obtain ⟨-, hr, hl⟩ := List.pairwise_append.mp h.unlike
  have hzero : ∀ us : List Expr, (∀ u ∈ us, u ∈ l ++ t :: r ∧ areLike (rest? u) (rest? t) = false) →
      (us.map fun u => u.coordinates (rest? t)).sum = 0 := by
    intro us hus
    refine List.sum_eq_zero fun q hq => ?_
    obtain ⟨u, hu, rfl⟩ := List.mem_map.mp hq
    obtain ⟨hmem, hunlike⟩ := hus u hu
    rw [coordinates_of_not_isSum (h.terms u hmem).2, hunlike, if_neg Bool.false_ne_true]
  have hself : t.coordinates (rest? t) = t.splitCoefficient.1 := by
    rw [coordinates_of_not_isSum (h.terms t ht).2, Expr.areLike_self, if_pos rfl]
  have hl0 := hzero l fun u hu => ⟨by simp [hu], hl u hu t (by simp)⟩
  have hr0 := hzero r fun u hu => by
    have hn := (List.pairwise_cons.mp hr).1 u hu
    exact ⟨by simp [hu], Expr.areLike_comm _ _ ▸ hn⟩
  rw [List.map_append, List.sum_append, List.map_cons, List.sum_cons, hl0, hr0, hself, add_zero,
    zero_add]

/-- The coordinate of a settled sum at the part of a term is the coefficient of the term. -/
theorem coordinates_rest (hs : (Expr.sum ts).IsSettled) (ht : t ∈ ts) :
    (Expr.sum ts).coordinates (rest? t) = t.splitCoefficient.1 := by
  have hind := areIndependent_of_settled hs
  rw [← hind.sum_coordinates ht]
  exact (isLinear_coordinates _).sum hind.terms fun _ _ => trivial

/-- Of independent terms that add up alike, each one is among the others. -/
theorem AreIndependent.mem_of_sums_eq (ht : AreIndependent ts) (hu : AreIndependent us)
    (h : ∀ k, (ts.map fun t => t.coordinates k).sum = (us.map fun u => u.coordinates k).sum)
    (hmem : t ∈ ts) : t ∈ us := by
  have hsum := (h (rest? t)).symm.trans (ht.sum_coordinates hmem)
  -- Some term on the other side is like this one, or they would add up to zero there.
  obtain ⟨u, hmemu, hlike⟩ : ∃ u ∈ us, areLike (rest? u) (rest? t) = true := by
    by_contra hn
    push Not at hn
    refine ht.ne_zero t hmem (hsum.symm.trans (List.sum_eq_zero fun q hq => ?_))
    obtain ⟨u, hmemu, rfl⟩ := List.mem_map.mp hq
    rw [coordinates_of_not_isSum (hu.terms u hmemu).2, if_neg (hn u hmemu)]
  have hrest := rest?_eq_of_areLike (hu.terms u hmemu) (ht.terms t hmem) hlike
  rw [← hrest, hu.sum_coordinates hmemu] at hsum
  rwa [← eq_of_areLike (hu.terms u hmemu) (ht.terms t hmem) hlike hsum]

/-- Independent terms that add up alike are the same in another order. -/
theorem AreIndependent.perm_of_sums_eq (ht : AreIndependent ts) (hu : AreIndependent us)
    (h : ∀ k, (ts.map fun t => t.coordinates k).sum = (us.map fun u => u.coordinates k).sum) :
    ts ~ us := by
  have nodup {l : List Expr} (hl : AreIndependent l) : l.Nodup := by
    refine hl.unlike.imp fun hne heq => ?_
    rw [heq, Expr.areLike_self] at hne
    cases hne
  refine (List.perm_ext_iff_of_nodup (nodup ht) (nodup hu)).mpr fun t => ?_
  exact ⟨ht.mem_of_sums_eq hu h, hu.mem_of_sums_eq ht fun k => (h k).symm⟩

/-! ## Settled expressions -/

/-- A settled expression is the sum of itself alone. -/
theorem sum_singleton (h : a.IsSettled) : sum [a] = a := by
  cases hs : a.isSum with
  | true =>
    cases a with
    | sum ts =>
      have hopen : summandsOf [Expr.sum ts] = summandsOf ts := List.append_nil _
      rw [sum, hopen, ← sum, sum_fixed h]
    | _ => cases hs
  | false =>
    have hopen : (summandsOf [a]).reverse = [a] := by
      rw [summandsOf_of_not_isSum (List.forall_mem_singleton.mpr hs), List.reverse_singleton]
    rw [sum, hopen]
    by_cases h0 : a = num 0
    · rw [h0]
      simp [mergedTerms, labelled, numberTerms, group, totalOf, sumOf, Expr.splitCoefficient]
    · -- A single term other than zero merges to itself.
      have hnum : ∀ q, num q ∈ [a] → q ≠ 0 := by
        rintro q hq rfl
        exact h0 (List.mem_singleton.mp hq).symm
      have hd : AreDistinct ([a].filterMap rest?) := by
        cases hr : rest? a with
        | none =>
          rw [List.filterMap_cons_none hr]
          exact .nil
        | some r =>
          rw [List.filterMap_cons_some hr]
          exact List.pairwise_singleton _ r
      have hp := mergedTerms_of_distinct (List.forall_mem_singleton.mpr ⟨h, hs⟩)
        (List.length_filter_le _ _) hnum hd
      rw [List.perm_singleton.mp hp]
      rfl

/-- A settled expression can be told from its coordinates. -/
theorem eq_of_coordinates_eq (ha : a.IsSettled) (hb : b.IsSettled)
    (h : a.coordinates = b.coordinates) : a = b := by
  have terms {e : Expr} (he : e.IsSettled) : AreTerms (summandsOf [e]).reverse :=
    areTerms_reverse (List.forall_mem_singleton.mpr he)
  have sums {e : Expr} (he : e.IsSettled) (k : Option Expr) :
      ((mergedTerms (summandsOf [e]).reverse).map fun t => t.coordinates k).sum =
        e.coordinates k := by
    have hlinear := isLinear_coordinates k
    rw [hlinear.sum_mergedTerms (terms he) fun _ _ => trivial, List.map_reverse, List.sum_reverse,
      hlinear.sum_summandsOf (List.forall_mem_singleton.mpr ⟨he, trivial⟩), List.map_singleton,
      List.sum_singleton]
  rw [← sum_singleton ha, ← sum_singleton hb]
  refine sumOf_perm (fun t ht => (areTerms_mergedTerms (terms ha) t ht).1) ?_
  refine (areIndependent_mergedTerms (terms ha)).perm_of_sums_eq
    (areIndependent_mergedTerms (terms hb)) fun k => ?_
  rw [sums ha, sums hb, h]

end StackAlgebra.Canonical
