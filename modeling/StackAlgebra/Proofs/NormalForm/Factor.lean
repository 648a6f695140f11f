import StackAlgebra.Proofs.Canonical.Group
import StackAlgebra.Proofs.Canonical.Descent
import StackAlgebra.Proofs.NormalForm.Settled

/-!
# Factors of settled products

What a product of settled expressions works on: its opened factors are settled and no products
(`areFactors_opened`), a base that occurs once stays the factor that it came from (`bare_mem`), and
merged factors that are no products are put together to a settled expression (`settled_productOf`),
the same one in whatever order they come (`productOf_perm`).
-/

namespace StackAlgebra.Canonical

open StackAlgebra.Expr (num nonNumbers isNum coefficientOf HaveDistinctBases)
open scoped List

variable {fs gs l k : List Expr} {f e : Expr} {c : Rat}

/-! ## Opened factors -/

/-- The factors of expressions are those of each one. -/
theorem multiplicandsOf_eq_flatMap (fs : List Expr) :
    multiplicandsOf fs = fs.flatMap multiplicands := by
  induction fs with
  | nil => rfl
  | cons f fs ih => rw [multiplicandsOf, ih, List.flatMap_cons]

/-- What is no product is its own only factor. -/
theorem multiplicands_of_not_isProduct (h : f.isProduct = false) : multiplicands f = [f] := by
  cases f with
  | product gs => cases h
  | _ => rfl

/-- Where there are no products there is nothing to open. -/
theorem multiplicandsOf_of_not_isProduct (h : ∀ f ∈ fs, f.isProduct = false) :
    multiplicandsOf fs = fs := by
  induction fs with
  | nil => rfl
  | cons f fs ih =>
    rw [multiplicandsOf, multiplicands_of_not_isProduct (h f (by simp)),
      ih fun g hg => h g (by simp [hg])]
    rfl

/-- Settled expressions that are no products. -/
def AreFactors (fs : List Expr) : Prop :=
  ∀ f ∈ fs, f.IsSettled ∧ f.isProduct = false

/-- The opened factors of settled expressions are settled, and no products. -/
theorem areFactors_opened (h : ∀ f ∈ fs, f.IsSettled) : AreFactors (opened fs) := by
  intro g hg
  rw [mem_opened, multiplicandsOf_eq_flatMap] at hg
  obtain ⟨f, hf, hg⟩ := List.mem_flatMap.mp hg
  have hs := h f hf
  cases hp : f.isProduct with
  | false =>
    rw [multiplicands_of_not_isProduct hp, List.mem_singleton] at hg
    exact hg ▸ ⟨hs, hp⟩
  | true =>
    cases f with
    | product gs =>
      obtain ⟨hn, -, hgs⟩ := Expr.settled_product_iff.mp hs
      rw [multiplicands, multiplicandsOf_of_not_isProduct hn.not_isProduct] at hg
      exact ⟨hgs g hg, hn.not_isProduct g hg⟩
    | _ => cases hp

/-- Expressions in another order have the same factors in another order. -/
theorem opened_perm (h : fs ~ gs) : opened fs ~ opened gs := by
  rw [opened, opened, multiplicandsOf_eq_flatMap, multiplicandsOf_eq_flatMap]
  exact (List.reverse_perm _).trans ((h.flatMap_right _).trans (List.reverse_perm _).symm)

/-- Where there are no products the factors are those that there were. -/
theorem opened_perm_self (h : ∀ f ∈ fs, f.isProduct = false) : opened fs ~ fs := by
  rw [opened, multiplicandsOf_of_not_isProduct h]
  exact List.reverse_perm fs

/-! ## Bases -/

/-- The bases of settled factors can be told from their keys. -/
theorem hasKeyedLabels_powers (h : AreFactors fs) :
    HasKeyedLabels ((nonNumbers fs).map Expr.splitPower) := by
  have hsettled : ∀ x ∈ (nonNumbers fs).map Expr.splitPower, x.1.IsSettled := by
    intro x hx
    obtain ⟨f, hf, rfl⟩ := List.mem_map.mp hx
    exact (h f (Expr.mem_of_mem_nonNumbers hf)).1.splitPower.1
  intro x hx y hy hxy
  exact (hsettled x hx).eq_of_key_eq (hsettled y hy) hxy

/-- An exponent of a base comes from a factor. -/
theorem exists_factor (h : AreFactors fs) {g : Expr × List Expr} (hg : g ∈ powersOf fs)
    (he : e ∈ g.2) : ∃ f ∈ nonNumbers fs, f.splitPower = (g.1, e) :=
  List.mem_map.mp (mem_of_mem_group (hasKeyedLabels_powers h) hg he)

/-- A base that occurs once stays the factor that it came from. -/
theorem bare_mem (h : AreFactors fs) {b : Expr} (hg : (b, [e]) ∈ powersOf fs) :
    bare b e ∈ nonNumbers fs := by
  obtain ⟨f, hf, heq⟩ := exists_factor h hg (List.mem_singleton.mpr rfl)
  have hs := (h f (Expr.mem_of_mem_nonNumbers hf)).1.bare_splitPower
  rw [heq] at hs
  rw [hs]
  exact hf

/-- Bases and exponents of settled factors are settled. -/
theorem settled_group (h : AreFactors fs) {g : Expr × List Expr} (hg : g ∈ powersOf fs) :
    g.1.IsSettled ∧ ∀ e ∈ g.2, e.IsSettled := by
  have hmem : ∀ e ∈ g.2, g.1.IsSettled ∧ e.IsSettled := by
    intro e he
    obtain ⟨f, hf, heq⟩ := exists_factor h hg he
    have hs := (h f (Expr.mem_of_mem_nonNumbers hf)).1.splitPower
    rwa [heq] at hs
  obtain ⟨e, he⟩ := List.exists_mem_of_length_pos (length_mem_group g hg)
  exact ⟨(hmem e he).1, fun e he => (hmem e he).2⟩

/-- A merged base is the factor that it came from, or the power to the sum of several exponents. -/
theorem mergePower_eq_ok (h : AreFactors fs) {g : Expr × List Expr} {m : Expr}
    (hg : g ∈ powersOf fs) (hm : mergePower g = .ok m) :
    m ∈ nonNumbers fs ∧ g.2.length = 1 ∨
      2 ≤ g.2.length ∧ (sum g.2).hasOrder = true ∧ power g.1 (sum g.2) = .ok m := by
  obtain ⟨b, es⟩ := g
  have hpos : 1 ≤ es.length := length_mem_group _ hg
  -- A group is never empty.
  rcases Nat.lt_or_ge es.length 2 with hlt | hge
  · left
    obtain ⟨e, rfl⟩ : ∃ e, es = [e] := List.length_eq_one_iff.mp (by omega)
    rw [← Except.ok.inj hm]
    exact ⟨bare_mem h hg, rfl⟩
  · right
    rw [mergePower_of_two_le hge] at hm
    obtain ⟨s, hs, hm⟩ := bind_eq_ok_iff.mp hm
    obtain ⟨rfl, ho⟩ := inOrder_eq_ok_iff.mp hs
    exact ⟨hge, ho, hm⟩

/-- Factors with different bases make groups of one. -/
theorem powersOf_of_distinct (hd : HaveDistinctBases fs) :
    powersOf fs = (nonNumbers fs).map fun f => (f.splitPower.1, [f.splitPower.2]) := by
  unfold HaveDistinctBases at hd
  rw [Expr.areDistinct_iff, List.pairwise_map] at hd
  rw [powersOf, group_of_pairwise (List.pairwise_map.mpr hd), List.map_map]
  rfl

/-- If no base occurs twice, the bases are different. -/
theorem distinct_of_not_hasMerged (h : hasMerged (powersOf fs) = false) : HaveDistinctBases fs := by
  have hlen : ∀ g ∈ powersOf fs, g.2.length ≤ 1 := by
    intro g hg
    have hg' := List.any_eq_false.mp h g hg
    simp only [decide_eq_true_eq] at hg'
    omega
  have hd := pairwise_of_forall_length hlen
  rw [List.pairwise_map] at hd
  rw [HaveDistinctBases, Expr.areDistinct_iff, List.pairwise_map]
  exact hd

/-! ## Putting factors together -/

/-- Two factors or more make a product. -/
theorem collapse_of_two_le (h : 2 ≤ fs.length) : collapse fs = .product (Expr.sort fs) := by
  match fs, h with
  | _ :: _ :: _, _ => rfl

/-- Factors in another order are put together to the same expression. -/
theorem collapse_perm (hl : ∀ f ∈ l, f.IsSettled) (h : l ~ k) : collapse l = collapse k := by
  match l with
  | [] => rw [List.nil_perm.mp h]
  | [f] => rw [List.singleton_perm.mp h]
  | f :: g :: l =>
    have hlen := h.length_eq
    rw [collapse_of_two_le (by simp), collapse_of_two_le (by rw [← hlen]; simp),
      Expr.sort_eq_sort_of_settled h hl]

/-- A number and factors in another order are put together to the same expression. -/
theorem productOf_perm (hl : ∀ f ∈ l, f.IsSettled) (h : l ~ k) : productOf c l = productOf c k := by
  unfold productOf
  split_ifs
  · rfl
  · exact collapse_perm hl h
  · exact collapse_perm (Expr.settled_append_num hl c) (h.append_right _)

/-- What holds everywhere in factors holds everywhere in what they and a number are put together to,
if at numbers and products it holds anyway. -/
theorem everywhere_productOf {P : Expr → Prop} (hnum : ∀ q, P (num q))
    (hproduct : ∀ fs, P (.product fs)) (h : ∀ f ∈ fs, f.Everywhere P) (c : Rat) :
    (productOf c fs).Everywhere P := by
  have number (q : Rat) : (num q).Everywhere P := .intro (hnum q) (by simp)
  have hcollapse : ∀ gs : List Expr, (∀ g ∈ gs, g.Everywhere P) → (collapse gs).Everywhere P := by
    intro gs hgs
    match gs with
    | [] => exact number 1
    | [g] => exact hgs g (by simp)
    | _ :: _ :: _ => exact .intro (hproduct _) fun g hg => hgs g ((Expr.perm_sort _).mem_iff.mp hg)
  unfold productOf
  split_ifs
  · exact number 0
  · exact hcollapse fs h
  · exact hcollapse _ (List.forall_mem_append.mpr ⟨h, List.forall_mem_singleton.mpr (number c)⟩)

/-- Settled factors are put together to a settled expression, if that has an order. -/
theorem settled_collapse (h : AreFactors fs) (hn : (fs.filter isNum).length ≤ 1)
    (h0 : ∀ q, num q ∈ fs → q ≠ 0) (h1 : ∀ q, num q ∈ fs → q ≠ 1)
    (hs : ∀ q ts, ¬ fs ~ [num q, .sum ts]) (ho : (collapse fs).hasOrder = true) :
    (collapse fs).IsSettled := by
  match fs with
  | [] => exact Expr.settled_num 1
  | [f] => exact (h f (by simp)).1
  | f :: g :: fs =>
    have hp : Expr.sort (f :: g :: fs) ~ f :: g :: fs := Expr.perm_sort _
    have hlen : 2 ≤ (f :: g :: fs).length := by simp
    rw [collapse_of_two_le hlen] at ho ⊢
    rw [Expr.settled_product_iff]
    refine ⟨?_, ho, fun d hd => (h d (hp.mem_iff.mp hd)).1⟩
    constructor
    · rwa [hp.length_eq]
    · exact fun d hd => (h d (hp.mem_iff.mp hd)).2
    · rwa [(hp.filter isNum).length_eq]
    · exact fun q hq => h0 q (hp.mem_iff.mp hq)
    · exact fun q hq => h1 q (hp.mem_iff.mp hq)
    · exact Expr.pairwise_sort _
    · exact fun q ts hq => hs q ts (hp.symm.trans hq)

/-- A number and settled factors that are no numbers are put together to a settled expression,
unless the number is to be distributed. -/
theorem settled_productOf (h : AreFactors fs) (hn : ∀ f ∈ fs, f.isNum = false)
    (hs : spread? c fs = none) (ho : (productOf c fs).hasOrder = true) :
    (productOf c fs).IsSettled := by
  have hnil : fs.filter isNum = [] := Expr.filter_isNum_eq_nil hn
  have hno : ∀ q, num q ∉ fs := Expr.num_not_mem hn
  by_cases h0 : c = 0
  · rw [productOf, if_pos h0]
    exact Expr.settled_num 0
  rw [productOf, if_neg h0] at ho ⊢
  by_cases h1 : c = 1
  · rw [if_pos h1] at ho ⊢
    refine settled_collapse h (by simp [hnil]) ?_ ?_ ?_ ho
    · exact fun q hq => absurd hq (hno q)
    · exact fun q hq => absurd hq (hno q)
    · exact fun q ts hp => hno q (hp.mem_iff.mpr (by simp))
  · rw [if_neg h1] at ho ⊢
    -- The number in front is the only one.
    have hmem : ∀ q, num q ∈ fs ++ [num c] → q = c := by
      intro q hq
      rcases List.mem_append.mp hq with hq | hq
      · exact absurd hq (hno q)
      · exact Expr.num.inj (List.mem_singleton.mp hq)
    refine settled_collapse ?_ ?_ (fun q hq => hmem q hq ▸ h0) (fun q hq => hmem q hq ▸ h1) ?_ ho
    · intro f hf
      rcases List.mem_append.mp hf with hf | hf
      · exact h f hf
      · rw [List.mem_singleton.mp hf]
        exact ⟨Expr.settled_num c, rfl⟩
    · rw [List.filter_append, hnil, List.nil_append]
      exact List.length_filter_le _ _
    · -- A sum beside the number would have had it distributed.
      intro q ts hp
      have hq : q = c := hmem q (hp.mem_iff.mpr (by simp))
      have hfs : fs = [.sum ts] := by
        have hp' := List.perm_append_comm.trans hp
        rw [hq, List.singleton_append, List.perm_cons, List.perm_singleton] at hp'
        exact hp'
      rw [spread?_eq_some_iff.mpr ⟨hfs, h0, h1⟩] at hs
      cases hs

end StackAlgebra.Canonical
