import StackAlgebra.Proofs.NormalForm.Product
import StackAlgebra.Proofs.Termination.Procedures

/-!
# Sums, products and powers come to an end

Within a large enough budget the loops over terms and factors end (`endsWith_sum`), and so do
products and powers of settled expressions, which call on each other (`endsWith_product`,
`endsWith_power`). They end with the results of `sum`, `product` and `power`. That the calls come to
an end is the induction over products and powers, in which depth, weight and size descend; what is
shown here is that the procedures make no other calls, and what budget each of them needs beyond
those of its calls.
-/

namespace StackAlgebra.Canonical

open Budgeted (EndsWith known HasParts endsWith_workList)
open StackAlgebra.Expr (num nonNumbers coefficientOf)

variable {fs os ts ms : List Expr} {b e : Expr}

/-! ## Sums -/

/-- A sum falls into its terms. -/
theorem hasParts_terms : HasParts terms? summands where
  children e es h := by
    cases e with
    | sum ts => exact fun c hc => Option.some.inj h ▸ hc
    | _ => cases h
  opened e es h := by
    cases e with
    | sum ts =>
      obtain rfl := Option.some.inj h
      exact summandsOf_eq_flatMap ts
    | _ => cases h
  leaf e h := by
    cases e with
    | sum ts => cases h
    | _ => rfl

/-- A coefficient added to that of a rest is the total of one summand more. -/
theorem addCoefficient_total (rest : Expr) (c : Rat) (gs : List (Expr × List Rat)) :
    addCoefficient rest c (gs.map fun g => (g.1, totalOf g.2)) =
      (addTo rest c gs).map fun g => (g.1, totalOf g.2) := by
  induction gs with
  | nil => rfl
  | cons g gs ih =>
    have htotal : totalOf (g.2 ++ [c]) = totalOf g.2 + c := by
      rw [totalOf, List.foldl_append]
      rfl
    simp only [List.map_cons, addCoefficient, addTo]
    split_ifs with h
    · rw [List.map_cons, htotal]
    · rw [List.map_cons, ih]

/-- Taken into account one after the other, terms add up to a constant and to the coefficients of
like terms. -/
theorem foldl_takeTerm (ts : List Expr) (q : Rat) (gs : List (Expr × List Rat)) :
    ts.foldl takeTerm (q, gs.map fun g => (g.1, totalOf g.2)) =
      ((numberTerms ts).foldl (· + ·) q,
        ((labelled ts).foldl (fun gs x => addTo x.1 x.2 gs) gs).map fun g =>
          (g.1, totalOf g.2)) := by
  induction ts generalizing q gs with
  | nil => rfl
  | cons t ts ih =>
    rw [List.foldl_cons, takeTerm]
    rcases ht : t.splitCoefficient with ⟨c, _ | rest⟩
    · have hnumbers : numberTerms (t :: ts) = c :: numberTerms ts := by simp [numberTerms, ht]
      have hlabelled : labelled (t :: ts) = labelled ts := by simp [labelled, ht]
      rw [hnumbers, hlabelled]
      exact ih (q + c) gs
    · have hnumbers : numberTerms (t :: ts) = numberTerms ts := by simp [numberTerms, ht]
      have hlabelled : labelled (t :: ts) = (rest, c) :: labelled ts := by simp [labelled, ht]
      dsimp only
      rw [hnumbers, hlabelled, addCoefficient_total]
      exact ih q (addTo rest c gs)

/-- A sum comes to an end. -/
theorem endsWith_sum (ts : List Expr) : EndsWith (fun n => sumWithin n ts) (inOrder (sum ts)) := by
  have hloop := endsWith_workList hasParts_terms takeTerm ts (0, [])
  rw [← summandsOf_eq_flatMap] at hloop
  have hfold := foldl_takeTerm (summandsOf ts).reverse 0 []
  rw [List.map_nil] at hfold
  rw [hfold] at hloop
  refine hloop.bind ?_
  -- What is left of the groups are the like terms.
  have hlike (gs : List (Expr × List Rat)) :
      (gs.map fun g => (g.1, totalOf g.2)).filterMap likeTerm = gs.filterMap mergeLike := by
    rw [List.filterMap_map]
    rfl
  simp only [hlike]
  exact .known _

/-! ## Powers of numbers -/

/-- Newton's iteration comes to an end. -/
theorem endsWith_descend (k n x : Nat) :
    EndsWith (fun m => descendWithin k n m x) (.ok (Root.descend k n x)) := by
  induction x using Nat.strong_induction_on with
  | _ x ih =>
    apply EndsWith.of_succ
    rw [Root.descend]
    simp only [descendWithin]
    by_cases h : ((k - 1) * x + n / x ^ (k - 1)) / k < x
    · simp only [if_neg (Nat.not_le.mpr h), if_pos h]
      exact ih _ h
    · simp only [if_pos (Nat.not_lt.mp h), if_neg h]
      exact .pure x

/-- The search for the floor of a root comes to an end. -/
theorem endsWith_floor (k n : Nat) :
    EndsWith (fun m => floorWithin m k n) (.ok (Root.floor k n)) := by
  unfold floorWithin Root.floor
  split_ifs
  · exact .pure n
  · exact .pure 1
  · exact endsWith_descend k n _

/-- The search for a root comes to an end. -/
theorem endsWith_root (k : Nat) (q : Rat) :
    EndsWith (fun m => rootWithin m k q) (.ok (Root.rational? k q)) :=
  (endsWith_floor k q.num.natAbs).bind ((endsWith_floor k q.den).bind (.pure _))

/-- A power of a rational comes to an end. -/
theorem endsWith_rationalPower (b e : Rat) :
    EndsWith (fun m => rationalPowerWithin m b e) (rationalPower b e) := by
  unfold rationalPowerWithin rationalPower
  by_cases h1 : e.den = 1
  · simp only [if_pos h1]
    exact .pure _
  · by_cases hcomplex : b < 0 ∧ e.den % 2 = 0
    · simp only [if_neg h1, if_pos hcomplex]
      exact .known _
    · simp only [if_neg h1, if_neg hcomplex]
      refine (endsWith_root e.den b.abs).bind ?_
      cases Root.rational? e.den b.abs <;> exact .pure _

/-- A power of a number comes to an end. -/
theorem endsWith_numberPower (b : Rat) (e : Expr) :
    EndsWith (fun m => numberPowerWithin m b e) (numberPower b e) := by
  by_cases h1 : b = 1
  · simp only [numberPowerWithin, numberPower, if_pos h1]
    exact .pure _
  · simp only [numberPowerWithin, numberPower, if_neg h1]
    cases e with
    | num q =>
      dsimp only
      split_ifs
      · exact .known _
      · exact .pure _
      · exact endsWith_rationalPower b q
    | _ => exact .pure _

/-! ## Products -/

/-- A product falls into its factors. -/
theorem hasParts_factors : HasParts factors? multiplicands where
  children e es h := by
    cases e with
    | product fs => exact fun c hc => Option.some.inj h ▸ hc
    | _ => cases h
  opened e es h := by
    cases e with
    | product fs =>
      obtain rfl := Option.some.inj h
      exact multiplicandsOf_eq_flatMap fs
    | _ => cases h
  leaf e h := by
    cases e with
    | product fs => cases h
    | _ => rfl

/-- Taken into account one after the other, factors multiply to a coefficient and gather by their
bases. -/
theorem foldl_takeFactor (fs : List Expr) (q : Rat) (gs : List (Expr × List Expr)) :
    fs.foldl takeFactor (q, gs) =
      (q * coefficientOf fs,
        ((nonNumbers fs).map Expr.splitPower).foldl (fun gs x => addTo x.1 x.2 gs) gs) := by
  induction fs generalizing q gs with
  | nil => simp [coefficientOf, nonNumbers]
  | cons f fs ih =>
    rw [List.foldl_cons]
    cases f with
    | num p =>
      rw [takeFactor, ih, coefficientOf, mul_assoc]
      rfl
    | _ => exact ih q _

/-- The loop over the factors comes to their coefficient and their bases. -/
theorem endsWith_factors (fs : List Expr) :
    EndsWith (fun n => Budgeted.workList factors? takeFactor n fs.reverse (1, []))
      (.ok (coefficientOf (opened fs), powersOf (opened fs))) := by
  have hloop := endsWith_workList hasParts_factors takeFactor fs (1, [])
  rwa [← multiplicandsOf_eq_flatMap, foldl_takeFactor, one_mul] at hloop

/-- What merged bases come to. -/
def mergedOf (s : Merged) (ms : List Expr) : Merged where
  coefficient := s.coefficient * coefficientOf ms
  factors := s.factors ++ nonNumbers ms
  expanded := s.expanded || (nonNumbers ms).any Expr.isProduct

/-- Merged bases are taken into account one after the other. -/
theorem mergedOf_take (s : Merged) (m : Expr) (ms : List Expr) :
    mergedOf (s.take m) ms = mergedOf s (m :: ms) := by
  cases m with
  | num q => simp [mergedOf, Merged.take, coefficientOf, nonNumbers, Expr.isNum, mul_assoc]
  | _ => simp [mergedOf, Merged.take, coefficientOf, nonNumbers, Expr.isNum, Bool.or_assoc]

/-- The loop over the bases ends if each base comes to an end. -/
theorem endsWith_mergeEach {merge : Nat → Expr × List Expr → Budgeted Expr}
    {gs : List (Expr × List Expr)}
    (h : ∀ g ∈ gs, EndsWith (fun n => merge n g) (mergePower g)) (s : Merged) :
    EndsWith (fun n => mergeEach (merge n) gs s) ((gs.mapM mergePower).map (mergedOf s)) := by
  induction gs generalizing s with
  | nil =>
    have hs : mergedOf s [] = s := by
      simp [mergedOf, coefficientOf, nonNumbers]
    show EndsWith _ (.ok (mergedOf s []))
    rw [hs]
    exact .pure s
  | cons g gs ih =>
    have hg := h g List.mem_cons_self
    rw [List.mapM_cons]
    cases hm : mergePower g with
    | error ε =>
      rw [hm] at hg
      exact hg.bind_error
    | ok m =>
      rw [hm] at hg
      refine hg.bind ?_
      have hrest := ih (fun g hg => h g (List.mem_cons_of_mem _ hg)) (s.take m)
      cases hms : gs.mapM mergePower with
      | error ε =>
        rw [hms] at hrest
        exact hrest
      | ok ms =>
        rw [hms] at hrest
        show EndsWith _ (.ok (mergedOf s (m :: ms)))
        rw [← mergedOf_take]
        exact hrest

/-- A product of settled expressions comes to an end. -/
def ProductEnds (fs : List Expr) : Prop :=
  (∀ f ∈ fs, f.IsSettled) → EndsWith (fun n => productWithin n fs) (product fs)

/-- A power of settled expressions comes to an end. -/
def PowerEnds (b e : Expr) : Prop :=
  b.IsSettled → e.IsSettled → EndsWith (fun n => powerWithin n b e) (power b e)

/-- A merged base comes to an end if the powers of several exponents do. -/
theorem endsWith_merge_of_calls (h : AreFactors os)
    (calls : ∀ b es, (b, es) ∈ powersOf os → 2 ≤ es.length → PowerEnds b (sum es)) :
    ∀ g ∈ powersOf os, EndsWith (fun n => mergeWithin n g) (mergePower g) := by
  rintro ⟨b, es⟩ hg
  obtain ⟨hb, hes⟩ := settled_group h hg
  apply EndsWith.of_succ
  match es, hg, hes with
  | [], hg, _ => exact absurd (length_mem_group _ hg) (by simp)
  | [e], _, _ => exact .pure _
  | e₁ :: e₂ :: es, hg, hes =>
    have hsum := endsWith_sum (e₁ :: e₂ :: es)
    rw [mergePower_of_two_le (by simp)]
    refine hsum.bind_of_ok fun s hs => ?_
    obtain ⟨rfl, ho⟩ := inOrder_eq_ok_iff.mp hs
    exact calls b _ hg (by simp) hb (settled_sum hes ho)

/-- Of settled factors a merged base is a product exactly if it has expanded. -/
theorem expanded_iff_any (h : AreFactors os)
    (hms : List.Forall₂ (fun g m => mergePower g = .ok m) (powersOf os) ms) :
    Expanded (powersOf os) ms ↔ (nonNumbers ms).any Expr.isProduct = true := by
  refine ⟨And.right, fun hany => ?_⟩
  by_contra hne
  obtain ⟨m, hm, hp⟩ := List.any_eq_true.mp hany
  rw [not_isProduct_of_not_expanded h hms hne m hm] at hp
  cases hp

/-- Factors that have not expanded are put together, a number being distributed over a single
sum. -/
theorem endsWith_distribute {c : Rat}
    (h : ∀ ts, fs = [.sum ts] →
      ∀ t ∈ ts, EndsWith (fun n => productWithin n [num c, t]) (product [num c, t])) :
    EndsWith (fun n => multiplyWithin (fun fs => productWithin n fs) n ⟨c, fs, false⟩)
      (distribute c fs) := by
  unfold multiplyWithin distribute
  simp only [Bool.false_eq_true, if_false]
  by_cases h0 : c = 0
  · have hspread : spread? c fs = none := by
      cases hs : spread? c fs with
      | none => rfl
      | some ts => exact absurd h0 (spread?_eq_some_iff.mp hs).2.1
    simp only [if_pos h0, hspread, productOf]
    exact .pure _
  · by_cases h1 : c = 1
    · have hspread : spread? c fs = none := by
        cases hs : spread? c fs with
        | none => rfl
        | some ts => exact absurd h1 (spread?_eq_some_iff.mp hs).2.2
      simp only [if_neg h0, if_pos h1, hspread, productOf]
      exact .known _
    · simp only [if_neg h0, if_neg h1]
      by_cases hsum : ∃ ts, fs = [.sum ts]
      · obtain ⟨ts, rfl⟩ := hsum
        rw [spread?_eq_some_iff.mpr ⟨rfl, h0, h1⟩]
        exact (EndsWith.mapM (h ts rfl)).bind_of_ok fun rs _ => endsWith_sum rs
      · have hspread : spread? c fs = none := by
          cases hs : spread? c fs with
          | none => rfl
          | some ts => exact absurd ⟨ts, (spread?_eq_some_iff.mp hs).1⟩ hsum
        rw [hspread]
        simp only [productOf, if_neg h0, if_neg h1]
        split
        · exact absurd ⟨_, rfl⟩ hsum
        · exact .known _

/-- Merged factors are put together in the end. -/
theorem endsWith_multiply_of_calls (hos : AreFactors (opened fs))
    (calls : ProductCalls ProductEnds PowerEnds fs) (c : Rat)
    (hms : List.Forall₂ (fun g m => mergePower g = .ok m) (powersOf (opened fs)) ms) :
    EndsWith
      (fun n => multiplyWithin (fun fs => productWithin n fs) n
        ⟨c * coefficientOf ms, nonNumbers ms, (nonNumbers ms).any Expr.isProduct⟩)
      (multiply c (powersOf (opened fs)) ms) := by
  have hsettled : ∀ m ∈ nonNumbers ms, m.IsSettled := fun m hm =>
    settled_merged hos hms m (Expr.mem_of_mem_nonNumbers hm)
  have hexpanded := expanded_iff_any hos hms
  cases hany : (nonNumbers ms).any Expr.isProduct with
  | true =>
    -- What has expanded is multiplied once more.
    have he : Expanded (powersOf (opened fs)) ms := hexpanded.mpr hany
    have hmultiply : multiply c (powersOf (opened fs)) ms =
        product (nonNumbers ms ++ [num (c * coefficientOf ms)]) := if_pos he
    rw [hmultiply]
    exact calls.again ms hms he.1 _ (Expr.settled_append_num hsettled _)
  | false =>
    have he : ¬ Expanded (powersOf (opened fs)) ms := by
      rw [hexpanded, hany]
      exact Bool.false_ne_true
    have hmultiply : multiply c (powersOf (opened fs)) ms =
        distribute (c * coefficientOf ms) (nonNumbers ms) := if_neg he
    rw [hmultiply]
    refine endsWith_distribute fun ts hts t ht => calls.spread ms hms ts hts _ t ht ?_
    have hsum : (Expr.sum ts).IsSettled := hsettled _ (by rw [hts]; exact List.mem_singleton_self _)
    simpa using ⟨Expr.settled_num _, (Expr.settled_sum_iff.mp hsum).2.2 t ht⟩

/-- A product comes to an end if its calls do. -/
theorem productEnds_of_calls (calls : ProductCalls ProductEnds PowerEnds fs) : ProductEnds fs := by
  intro hfs
  have hos := areFactors_opened hfs
  apply EndsWith.of_succ
  refine (endsWith_factors fs).bind ?_
  dsimp only
  by_cases hc : coefficientOf (opened fs) = 0
  · simp only [if_pos hc]
    rw [product_eq, if_pos hc]
    exact .pure _
  · simp only [if_neg hc]
    have hmerge := endsWith_mergeEach (endsWith_merge_of_calls hos calls.merged)
      ⟨coefficientOf (opened fs), [], false⟩
    cases hm : (powersOf (opened fs)).mapM mergePower with
    | error ε =>
      rw [hm] at hmerge
      rw [product_eq, if_neg hc, hm]
      exact hmerge.bind_error
    | ok ms =>
      have hms := mapM_eq_ok_iff.mp hm
      rw [hm] at hmerge
      rw [product_eq_multiply hc hms]
      refine hmerge.bind ?_
      have hs : mergedOf ⟨coefficientOf (opened fs), [], false⟩ ms =
          ⟨coefficientOf (opened fs) * coefficientOf ms, nonNumbers ms,
            (nonNumbers ms).any Expr.isProduct⟩ := by
        simp [mergedOf]
      rw [hs]
      exact endsWith_multiply_of_calls hos calls _ hms

/-- A power comes to an end if its calls do. -/
theorem powerEnds_of_calls (calls : PowerCalls ProductEnds PowerEnds b e) : PowerEnds b e := by
  intro hb he
  apply EndsWith.of_succ
  rw [power_eq]
  simp only [powerWithin]
  by_cases h0 : e.isZero = true
  · simp only [if_pos h0]
    split_ifs
    · exact .known _
    · exact .pure _
  · by_cases h1 : e.isOne = true
    · simp only [if_neg h0, if_pos h1]
      exact .pure _
    · simp only [if_neg h0, if_neg h1]
      cases b with
      | num q => exact endsWith_numberPower q e
      | power b' a =>
        obtain ⟨-, hb, ha⟩ := Expr.settled_power_iff.mp hb
        have hargs : ∀ f ∈ [a, e], f.IsSettled := by simpa using ⟨ha, he⟩
        refine (calls.exponents b' a rfl hargs).bind_of_ok fun x hx => ?_
        exact calls.inner b' a x rfl hx hb (settled_product hargs hx)
      | product fs =>
        obtain ⟨-, -, hfs⟩ := Expr.settled_product_iff.mp hb
        by_cases hi : e.isInteger = true
        · simp only [if_pos hi]
          refine (EndsWith.mapM fun f hf => calls.factor fs rfl hi f hf (hfs f hf) he).bind_of_ok ?_
          intro rs hrs
          have hrs := mapM_eq_ok_iff.mp hrs
          refine calls.factors fs rs rfl hi hrs fun r hr => ?_
          obtain ⟨f, hf, hfr⟩ := exists_of_mem_forall₂ hrs hr
          exact settled_power (hfs f hf) he hfr
        · simp only [if_neg hi]
          exact .pure _
      | _ => exact .pure _

/-- The product of settled expressions comes to an end. -/
theorem endsWith_product (hfs : ∀ f ∈ fs, f.IsSettled) :
    EndsWith (fun n => productWithin n fs) (product fs) :=
  product_induction (fun _ => productEnds_of_calls) (fun _ _ => powerEnds_of_calls) fs hfs

/-- A settled power of a settled expression comes to an end. -/
theorem endsWith_power (hb : b.IsSettled) (he : e.IsSettled) :
    EndsWith (fun n => powerWithin n b e) (power b e) :=
  power_induction (fun _ => productEnds_of_calls) (fun _ _ => powerEnds_of_calls) b e hb he

end StackAlgebra.Canonical
