import StackAlgebra.Proofs.Canonical.Group
import StackAlgebra.Proofs.Canonical.Descent
import StackAlgebra.Proofs.NormalForm.Settled
import Mathlib.Algebra.BigOperators.Group.List.Basic

/-!
# Sums of settled terms

Adding settled terms gives a settled expression (`settled_sum`), whatever the order of the terms the
same one (`sum_perm`), and the terms of a settled sum add up to that sum (`sum_fixed`). All three
rest on what is known of the merged terms: they are settled, at most one of them is a number, their
parts without coefficient differ (`distinct_rests`), and where nothing merges they are the terms
themselves (`mergedTerms_of_distinct`).
-/

namespace StackAlgebra.Canonical

open StackAlgebra.Expr (num nonNumbers isNum rest? AreDistinct IsMonic)
open scoped List

variable {ts us l k : List Expr} {t : Expr}

/-! ## Terms -/

/-- The terms of expressions are those of each one. -/
theorem summandsOf_eq_flatMap (ts : List Expr) : summandsOf ts = ts.flatMap summands := by
  induction ts with
  | nil => rfl
  | cons t ts ih => rw [summandsOf, ih, List.flatMap_cons]

/-- What is no sum is its own only term. -/
theorem summands_of_not_isSum (h : t.isSum = false) : summands t = [t] := by
  cases t with
  | sum us => cases h
  | _ => rfl

/-- Where there are no sums there is nothing to open. -/
theorem summandsOf_of_not_isSum (h : ∀ t ∈ ts, t.isSum = false) : summandsOf ts = ts := by
  induction ts with
  | nil => rfl
  | cons t ts ih =>
    rw [summandsOf, summands_of_not_isSum (h t (by simp)), ih fun u hu => h u (by simp [hu])]
    rfl

/-- Settled expressions that are no sums. -/
def AreTerms (ts : List Expr) : Prop :=
  ∀ t ∈ ts, t.IsSettled ∧ t.isSum = false

/-- The terms of settled expressions are settled, and no sums. -/
theorem areTerms_summandsOf (h : ∀ t ∈ ts, t.IsSettled) : AreTerms (summandsOf ts) := by
  intro u hu
  rw [summandsOf_eq_flatMap] at hu
  obtain ⟨t, ht, hu⟩ := List.mem_flatMap.mp hu
  have hs := h t ht
  cases hsum : t.isSum with
  | false =>
    rw [summands_of_not_isSum hsum, List.mem_singleton] at hu
    exact hu ▸ ⟨hs, hsum⟩
  | true =>
    cases t with
    | sum us =>
      obtain ⟨hn, -, hus⟩ := Expr.settled_sum_iff.mp hs
      rw [summands, summandsOf_of_not_isSum hn.not_isSum] at hu
      exact ⟨hus u hu, hn.not_isSum u hu⟩
    | _ => cases hsum

/-- The terms of settled expressions are settled, and no sums, in the order in which they are
merged. -/
theorem areTerms_reverse (h : ∀ t ∈ ts, t.IsSettled) : AreTerms (summandsOf ts).reverse :=
  fun t ht => areTerms_summandsOf h t (List.mem_reverse.mp ht)

/-- The part of a term without the coefficient, and the coefficient. -/
def labelOf (t : Expr) : Expr × Rat :=
  ((rest? t).getD t, t.splitCoefficient.1)

/-- A term is made from its parts. -/
theorem labelOf_spec (ht : t.IsSettled ∧ t.isSum = false) (hn : t.isNum = false) :
    (labelOf t).1.IsMonic ∧ (labelOf t).2 ≠ 0 ∧ rest? t = some (labelOf t).1 ∧
      term (labelOf t).2 (labelOf t).1 = t := by
  obtain ⟨c, r, hc, hr, rfl⟩ := ht.1.exists_term hn ht.2
  have hs := hr.splitCoefficient_term c
  simp only [labelOf, rest?, hs, Option.getD_some]
  exact ⟨hr, hc, trivial, trivial⟩

/-- The labels of terms are those of the terms that are no numbers. -/
theorem labelled_eq_map (h : AreTerms ts) : labelled ts = (nonNumbers ts).map labelOf := by
  induction ts with
  | nil => rfl
  | cons t ts ih =>
    have ih := ih fun u hu => h u (List.mem_cons_of_mem _ hu)
    cases hn : t.isNum with
    | true =>
      obtain ⟨q, rfl⟩ := Expr.exists_eq_num hn
      simpa [labelled, nonNumbers, isNum, Expr.splitCoefficient] using ih
    | false =>
      obtain ⟨-, -, hr, -⟩ := labelOf_spec (h t List.mem_cons_self) hn
      have hs : t.splitCoefficient.2 = some (labelOf t).1 := hr
      rw [nonNumbers, List.filter_cons_of_pos (by simp [hn]), List.map_cons, ← nonNumbers, ← ih,
        labelled, List.filterMap_cons_some (b := labelOf t), ← labelled]
      rw [hs]
      rfl

/-- The numbers among terms are the terms that are numbers. -/
theorem numberTerms_eq_filterMap (h : AreTerms ts) : numberTerms ts = ts.filterMap Expr.value? := by
  refine List.filterMap_congr fun t ht => ?_
  cases hn : t.isNum with
  | true =>
    obtain ⟨q, rfl⟩ := Expr.exists_eq_num hn
    rfl
  | false =>
    obtain ⟨-, -, hr, -⟩ := labelOf_spec (h t ht) hn
    have hs : t.splitCoefficient = (t.splitCoefficient.1, some (labelOf t).1) := Prod.ext rfl hr
    rw [hs]
    cases t with
    | num q => cases hn
    | _ => rfl

/-- The labels of terms stand for what comes beside a coefficient, and no coefficient is zero. -/
theorem spec_of_mem_labelled (h : AreTerms ts) {x : Expr × Rat} (hx : x ∈ labelled ts) :
    x.1.IsMonic ∧ x.2 ≠ 0 := by
  rw [labelled_eq_map h] at hx
  obtain ⟨t, ht, rfl⟩ := List.mem_map.mp hx
  have hs := labelOf_spec (h t (Expr.mem_of_mem_nonNumbers ht)) (Expr.isNum_of_mem_nonNumbers ht)
  exact ⟨hs.1, hs.2.1⟩

/-- The labels of terms can be told from their keys. -/
theorem hasKeyedLabels_labelled (h : AreTerms ts) : HasKeyedLabels (labelled ts) := by
  intro x hx y hy hxy
  exact (spec_of_mem_labelled h hx).1.settled.eq_of_key_eq (spec_of_mem_labelled h hy).1.settled hxy

/-- The labels of groups of terms stand for what comes beside a coefficient. -/
theorem isMonic_of_mem_group (h : AreTerms ts) {g : Expr × List Rat}
    (hg : g ∈ group (labelled ts)) :
    g.1.IsMonic := by
  obtain ⟨x, hx, heq⟩ := label_mem_group hg
  rw [heq]
  exact (spec_of_mem_labelled h hx).1

/-! ## Merged terms -/

/-- What merges to a term is a settled term. -/
theorem mergeLike_eq_some {g : Expr × List Rat} (h : mergeLike g = some t) :
    totalOf g.2 ≠ 0 ∧ t = term (totalOf g.2) g.1 := by
  simp only [mergeLike] at h
  split_ifs at h with hc
  exact ⟨hc, (Option.some.inj h).symm⟩

/-- Merged terms are settled, and no sums. -/
theorem areTerms_mergedTerms (h : AreTerms ts) : AreTerms (mergedTerms ts) := by
  intro t ht
  rcases List.mem_append.mp ht with ht | ht
  · obtain ⟨g, hg, hm⟩ := List.mem_filterMap.mp ht
    have hr := isMonic_of_mem_group h hg
    obtain ⟨hc, rfl⟩ := mergeLike_eq_some hm
    exact ⟨hr.settled_term hc, (hr.kind_term _).2⟩
  · split_ifs at ht with hc
    · simp at ht
    · rw [List.mem_singleton.mp ht]
      exact ⟨Expr.settled_num _, rfl⟩

/-- What merges from groups is no number. -/
theorem isNum_of_mem_merged (h : AreTerms ts) (ht : t ∈ (group (labelled ts)).filterMap mergeLike) :
    t.isNum = false := by
  obtain ⟨g, hg, hm⟩ := List.mem_filterMap.mp ht
  have hr := isMonic_of_mem_group h hg
  obtain ⟨-, rfl⟩ := mergeLike_eq_some hm
  exact (hr.kind_term _).1

/-- A number among merged terms is the only one, and not zero. -/
theorem num_mem_mergedTerms (h : AreTerms ts) :
    ((mergedTerms ts).filter isNum).length ≤ 1 ∧ ∀ q, num q ∈ mergedTerms ts → q ≠ 0 := by
  have hm : ((group (labelled ts)).filterMap mergeLike).filter isNum = [] :=
    Expr.filter_isNum_eq_nil fun t => isNum_of_mem_merged h
  constructor
  · rw [mergedTerms, List.filter_append, hm, List.nil_append]
    split_ifs
    · simp
    · exact List.length_filter_le _ _
  · intro q hq
    rcases List.mem_append.mp hq with hq | hq
    · exact absurd (isNum_of_mem_merged h hq) (by simp [isNum])
    · split_ifs at hq with hc
      · simp at hq
      · rw [Expr.num.inj (List.mem_singleton.mp hq)]
        exact hc

/-- The parts of merged terms without coefficient are among the labels of the groups, in order. -/
theorem sublist_labels {gs : List (Expr × List Rat)} (h : ∀ g ∈ gs, g.1.IsMonic) :
    ((gs.filterMap mergeLike).filterMap rest?).Sublist (gs.map Prod.fst) := by
  induction gs with
  | nil => exact .slnil
  | cons g gs ih =>
    have ih := ih fun g hg => h g (List.mem_cons_of_mem _ hg)
    cases hm : mergeLike g with
    | none =>
      rw [List.filterMap_cons_none hm, List.map_cons]
      exact ih.cons _
    | some t =>
      have hg := h g List.mem_cons_self
      obtain ⟨-, rfl⟩ := mergeLike_eq_some hm
      rw [List.filterMap_cons_some hm, List.filterMap_cons_some (hg.rest?_term _), List.map_cons]
      exact ih.cons_cons _

/-- Merged terms differ in their parts without coefficient. -/
theorem distinct_rests (h : AreTerms ts) : AreDistinct ((mergedTerms ts).filterMap rest?) := by
  have hnum : (if totalOf (numberTerms ts) = 0 then ([] : List Expr)
      else [num (totalOf (numberTerms ts))]).filterMap rest? = [] := by
    split_ifs <;> rfl
  have hsub := sublist_labels fun g hg => isMonic_of_mem_group h (g := g) hg
  rw [mergedTerms, List.filterMap_append, hnum, List.append_nil, Expr.areDistinct_iff]
  refine List.Pairwise.sublist hsub ?_
  rw [List.pairwise_map]
  exact (groups_group (labelled ts)).distinct

/-- Settled terms that differ in their parts without coefficient, at most one of them a number, are
different. -/
theorem areDistinct_of_rests (h : AreTerms ts) (hn : (ts.filter isNum).length ≤ 1)
    (hd : AreDistinct (ts.filterMap rest?)) : AreDistinct ts := by
  refine Expr.areDistinct_of_nonNumbers hn ?_
  rw [Expr.areDistinct_iff, List.pairwise_filterMap] at hd
  rw [Expr.areDistinct_iff]
  refine (hd.sublist List.filter_sublist).imp_of_mem ?_
  intro a b ha hb hrest hkey
  -- Terms of one key are equal, and so are their parts without coefficient.
  have ha' := h a (Expr.mem_of_mem_nonNumbers ha)
  have heq := ha'.1.eq_of_key_eq (h b (Expr.mem_of_mem_nonNumbers hb)).1 hkey
  subst heq
  obtain ⟨-, -, hr, -⟩ := labelOf_spec ha' (Expr.isNum_of_mem_nonNumbers ha)
  exact hrest _ hr _ hr rfl

/-! ## The sum -/

/-- Settled terms have a settled sum, if it has an order. -/
theorem settled_sumOf (h : AreTerms ts) (hn : (ts.filter isNum).length ≤ 1)
    (h0 : ∀ q, num q ∈ ts → q ≠ 0) (hd : AreDistinct (ts.filterMap rest?))
    (ho : (sumOf ts).hasOrder = true) : (sumOf ts).IsSettled := by
  match ts with
  | [] => exact Expr.settled_num 0
  | [t] => exact (h t (by simp)).1
  | t :: u :: ts =>
    have hp : (Expr.sort (t :: u :: ts)).Perm (t :: u :: ts) := Expr.perm_sort _
    have hsum : sumOf (t :: u :: ts) = .sum (Expr.sort (t :: u :: ts)) := rfl
    rw [hsum, Expr.settled_sum_iff]
    refine ⟨?_, ho, fun v hv => (h v (hp.mem_iff.mp hv)).1⟩
    constructor
    · rw [hp.length_eq]
      simp
    · exact fun v hv => (h v (hp.mem_iff.mp hv)).2
    · rw [(hp.filter isNum).length_eq]
      exact hn
    · exact fun q hq => h0 q (hp.mem_iff.mp hq)
    · exact Expr.increasing_of_distinct (Expr.pairwise_sort _)
        ((areDistinct_of_rests h hn hd).perm hp.symm)
    · exact hd.perm (hp.symm.filterMap rest?)

/-- The sum of settled expressions is settled, if it has an order. -/
theorem settled_sum (h : ∀ t ∈ ts, t.IsSettled) (ho : (sum ts).hasOrder = true) :
    (sum ts).IsSettled := by
  have hterms := areTerms_reverse h
  obtain ⟨hn, h0⟩ := num_mem_mergedTerms hterms
  exact settled_sumOf (areTerms_mergedTerms hterms) hn h0 (distinct_rests hterms) ho

/-! ## Order -/

/-- The total is the sum. -/
theorem totalOf_eq_sum (qs : List Rat) : totalOf qs = qs.sum := (List.sum_eq_foldl).symm

/-- Groups that hold the same coefficients in another order make the same terms. -/
theorem filterMap_mergeLike {gs hs : List (Expr × List Rat)}
    (h : List.Forall₂ (fun g g' => g.1 = g'.1 ∧ g.2 ~ g'.2) gs hs) :
    gs.filterMap mergeLike = hs.filterMap mergeLike := by
  induction h with
  | nil => rfl
  | @cons g g' _ _ hg _ ih =>
    have hsame : mergeLike g = mergeLike g' := by
      simp only [mergeLike, totalOf_eq_sum, hg.1, hg.2.sum_eq]
    rw [List.filterMap_cons, List.filterMap_cons, hsame, ih]

/-- Terms in another order merge to the same terms in another order. -/
theorem mergedTerms_perm (hl : AreTerms l) (h : l ~ k) : mergedTerms l ~ mergedTerms k := by
  have hlab : labelled l ~ labelled k := h.filterMap _
  have htotal : totalOf (numberTerms l) = totalOf (numberTerms k) := by
    rw [totalOf_eq_sum, totalOf_eq_sum]
    exact (h.filterMap _).sum_eq
  obtain ⟨gs, hgs, hpair⟩ := exists_perm_group (hasKeyedLabels_labelled hl) hlab
  rw [mergedTerms, mergedTerms, filterMap_mergeLike hpair, htotal]
  exact (hgs.filterMap mergeLike).append_right _

/-- Merged terms in another order make the same sum. -/
theorem sumOf_perm (hl : ∀ t ∈ l, t.IsSettled) (h : l ~ k) : sumOf l = sumOf k := by
  match l with
  | [] => rw [List.nil_perm.mp h]
  | [t] => rw [List.singleton_perm.mp h]
  | t :: u :: ts =>
    have hlen := h.length_eq
    match k with
    | [] => simp at hlen
    | [_] => simp at hlen
    | v :: w :: vs =>
      show Expr.sum (Expr.sort _) = Expr.sum (Expr.sort _)
      rw [Expr.sort_eq_sort_of_settled h hl]

/-- Settled expressions in another order have the same sum. -/
theorem sum_perm (hs : ∀ t ∈ ts, t.IsSettled) (h : ts ~ us) : sum ts = sum us := by
  have hp : (summandsOf ts).reverse ~ (summandsOf us).reverse := by
    rw [summandsOf_eq_flatMap, summandsOf_eq_flatMap]
    exact (List.reverse_perm _).trans ((h.flatMap_right _).trans (List.reverse_perm _).symm)
  have hterms := areTerms_reverse hs
  exact sumOf_perm (fun t ht => (areTerms_mergedTerms hterms t ht).1) (mergedTerms_perm hterms hp)

/-! ## Sums that stay -/

/-- The labels are the parts without coefficient. -/
theorem map_fst_labelled (ts : List Expr) : (labelled ts).map Prod.fst = ts.filterMap rest? := by
  rw [labelled, List.map_filterMap]
  refine List.filterMap_congr fun t _ => ?_
  rw [Option.map_map]
  exact Option.map_id'

/-- Terms whose parts without coefficient differ do not merge. -/
theorem mergedTerms_of_distinct (h : AreTerms ts) (hn : (ts.filter isNum).length ≤ 1)
    (h0 : ∀ q, num q ∈ ts → q ≠ 0) (hd : AreDistinct (ts.filterMap rest?)) :
    mergedTerms ts ~ ts := by
  -- Each term makes a group of its own, from which it merges as it was.
  have hgroup : (group (labelled ts)).filterMap mergeLike = nonNumbers ts := by
    rw [Expr.areDistinct_iff, ← map_fst_labelled, List.pairwise_map] at hd
    rw [group_of_pairwise hd, labelled_eq_map h, List.map_map, List.filterMap_map]
    conv_rhs => rw [← List.filterMap_some (l := nonNumbers ts)]
    refine List.filterMap_congr fun t ht => ?_
    obtain ⟨-, hc, -, hterm⟩ := labelOf_spec (h t (Expr.mem_of_mem_nonNumbers ht))
      (Expr.isNum_of_mem_nonNumbers ht)
    have htotal : totalOf [(labelOf t).2] = (labelOf t).2 := by
      rw [totalOf_eq_sum, List.sum_singleton]
    simp only [Function.comp, mergeLike, htotal, if_neg hc, hterm]
  -- The only number is the total of the numbers, and not zero.
  have hnumber : (if totalOf (numberTerms ts) = 0 then [] else [num (totalOf (numberTerms ts))]) =
      ts.filter isNum := by
    have hvalue : numberTerms ts = (ts.filter isNum).filterMap Expr.value? := by
      rw [numberTerms_eq_filterMap h, List.filterMap_filter]
      refine List.filterMap_congr fun t _ => ?_
      cases t <;> rfl
    rw [hvalue]
    rcases hf : ts.filter isNum with _ | ⟨t, _ | ⟨u, us⟩⟩
    · rfl
    · obtain ⟨ht, hnt⟩ := List.mem_filter.mp (show t ∈ ts.filter isNum by simp [hf])
      obtain ⟨q, rfl⟩ := Expr.exists_eq_num hnt
      have htotal : totalOf ([num q].filterMap Expr.value?) = q := by
        rw [totalOf_eq_sum]
        exact List.sum_singleton
      rw [htotal, if_neg (h0 q ht)]
    · rw [hf] at hn
      exact absurd hn (by simp)
  rw [mergedTerms, hgroup, hnumber]
  exact List.perm_append_comm.trans (List.filter_append_perm isNum ts)

/-- The terms of a settled sum add up to that sum. -/
theorem sum_fixed (h : (Expr.sum ts).IsSettled) : sum ts = .sum ts := by
  obtain ⟨hn, -, hs⟩ := Expr.settled_sum_iff.mp h
  have hterms : AreTerms ts := fun t ht => ⟨hs t ht, hn.not_isSum t ht⟩
  have hmerged : mergedTerms ts ~ ts := mergedTerms_of_distinct hterms hn.one_num hn.num_ne_zero
    hn.distinct
  -- There are no sums to open, and the order in which terms are merged does not matter.
  have hopen : mergedTerms (summandsOf ts).reverse ~ ts := by
    rw [summandsOf_of_not_isSum hn.not_isSum]
    exact (mergedTerms_perm (fun t ht => hterms t (List.mem_reverse.mp ht))
      (List.reverse_perm ts)).trans hmerged
  have hsum : sumOf ts = .sum (Expr.sort ts) := by
    match ts, hn.two_le with
    | _ :: _ :: _, _ => rfl
  rw [sum, ← sumOf_perm hs hopen.symm, hsum, Expr.sort_of_pairwise (hn.increasing.imp le_of_lt)]

end StackAlgebra.Canonical
