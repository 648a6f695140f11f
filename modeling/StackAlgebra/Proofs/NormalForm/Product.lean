import StackAlgebra.Proofs.NormalForm.Sum
import StackAlgebra.Proofs.NormalForm.Factor
import StackAlgebra.Proofs.NormalForm.NumberPower
import Mathlib.Data.List.Perm.Basic

/-!
# Products and powers of settled expressions

Multiplying settled expressions and raising them to settled exponents gives settled expressions
(`settled_product`, `settled_power`), by the induction that follows the calls between the two.
Settled powers stay as they are (`power_fixed`), and so do settled products whose factors have
different bases (`product_fixed`). The order of the factors does not matter (`product_perm`).
-/

namespace StackAlgebra.Canonical

open StackAlgebra.Expr (num nonNumbers isNum coefficientOf HaveDistinctBases)
open scoped List

variable {fs gs ms : List Expr} {b e r : Expr}

/-! ## Settled results -/

/-- Merged bases that did not expand are no products. -/
theorem not_isProduct_of_not_expanded (h : AreFactors fs)
    (hms : List.Forall₂ (fun g m => mergePower g = .ok m) (powersOf fs) ms)
    (hne : ¬ Expanded (powersOf fs) ms) : ∀ m ∈ nonNumbers ms, m.isProduct = false := by
  intro m hm
  by_contra hp
  have hany : (nonNumbers ms).any Expr.isProduct = true :=
    List.any_eq_true.mpr ⟨m, hm, Bool.not_eq_false _ ▸ hp⟩
  have hmerged : ¬ hasMerged (powersOf fs) = true := fun hmg => hne ⟨hmg, hany⟩
  obtain ⟨g, hg, hgm⟩ := exists_of_mem_forall₂ hms (Expr.mem_of_mem_nonNumbers hm)
  -- No base is merged, so that `m` is one of the factors.
  rcases mergePower_eq_ok h hg hgm with ⟨hmf, -⟩ | ⟨hlen, -, -⟩
  · exact hp (h m (Expr.mem_of_mem_nonNumbers hmf)).2
  · exact hmerged (List.any_eq_true.mpr ⟨g, hg, by simpa using hlen⟩)

/-- What a product of settled expressions comes to is settled. -/
def ProductSettles (fs : List Expr) : Prop :=
  (∀ f ∈ fs, f.IsSettled) → ∀ r, product fs = .ok r → r.IsSettled

/-- What a power of settled expressions comes to is settled. -/
def PowerSettles (b e : Expr) : Prop :=
  b.IsSettled → e.IsSettled → ∀ r, power b e = .ok r → r.IsSettled

/-- Merged bases of settled factors are settled, if the powers of several exponents are. -/
theorem settled_merged_of_calls (h : AreFactors fs)
    (calls : ∀ b es, (b, es) ∈ powersOf fs → 2 ≤ es.length → PowerSettles b (sum es))
    (hms : List.Forall₂ (fun g m => mergePower g = .ok m) (powersOf fs) ms) :
    ∀ m ∈ ms, m.IsSettled := by
  intro m hm
  obtain ⟨g, hg, hgm⟩ := exists_of_mem_forall₂ hms hm
  obtain ⟨hb, hes⟩ := settled_group h hg
  rcases mergePower_eq_ok h hg hgm with ⟨hmf, -⟩ | ⟨hlen, ho, hpow⟩
  · exact (h m (Expr.mem_of_mem_nonNumbers hmf)).1
  · exact calls g.1 g.2 hg hlen hb (settled_sum hes ho) m hpow

/-- A product comes to a settled result if its calls do. -/
theorem productSettles_of_calls (calls : ProductCalls ProductSettles PowerSettles fs) :
    ProductSettles fs := by
  intro hfs r h
  have hos := areFactors_opened hfs
  rcases merged_of_product_eq_ok h with ⟨-, rfl⟩ | ⟨-, ms, hms, hr⟩
  · exact Expr.settled_num 0
  have hsettled : ∀ m ∈ ms, m.IsSettled := settled_merged_of_calls hos calls.merged hms
  have hnon : ∀ m ∈ nonNumbers ms, m.IsSettled := fun m hm =>
    hsettled m (Expr.mem_of_mem_nonNumbers hm)
  cases multiply_eq_ok hr with
  | again he hr =>
    exact calls.again ms hms he.1 _ (Expr.settled_append_num hnon _) r hr
  | spread he ts rs hts h0 h1 hrs hr ho =>
    have hsum : (Expr.sum ts).IsSettled := hnon _ (by rw [hts]; exact List.mem_singleton.mpr rfl)
    rw [hr]
    refine settled_sum (fun x hx => ?_) ho
    obtain ⟨t, ht, hx⟩ := exists_of_mem_forall₂ hrs hx
    refine calls.spread ms hms ts hts _ t ht ?_ x hx
    simpa using ⟨Expr.settled_num _, (Expr.settled_sum_iff.mp hsum).2.2 t ht⟩
  | gather he hs hr ho =>
    rw [hr]
    refine settled_productOf (fun m hm => ⟨hnon m hm, ?_⟩)
      (fun m => Expr.isNum_of_mem_nonNumbers) hs ho
    exact not_isProduct_of_not_expanded hos hms he m hm

/-- A power that stays as it is is settled. -/
theorem settled_power_of_stays (hb : b.IsSettled) (he : e.IsSettled) (h0 : e.isZero = false)
    (h1 : e.isOne = false) (hn : b.isNum = false) (hp : ∀ b' a, b ≠ .power b' a)
    (hf : b.isProduct = true → e.isInteger = false) : (Expr.power b e).IsSettled := by
  have hne : ∀ q, b ≠ num q := by
    rintro q rfl
    cases hn
  rw [Expr.settled_power_iff]
  refine ⟨?_, hb, he⟩
  constructor
  · exact h0
  · exact h1
  · cases b with
    | num q => cases hn
    | _ => rfl
  · cases b with
    | power b' a => exact absurd rfl (hp b' a)
    | _ => rfl
  · exact fun _ => hn
  · intro hi
    by_contra hprod
    rw [hf (Bool.not_eq_false _ ▸ hprod)] at hi
    cases hi
  · intro hz
    cases b with
    | num q => cases hn
    | _ => cases hz
  · exact fun q _ hq => absurd hq (hne q)
  · exact fun q _ hq => absurd hq (hne q)
  · exact fun q _ hq => absurd hq (hne q)

/-- A power comes to a settled result if its calls do. -/
theorem powerSettles_of_calls (calls : PowerCalls ProductSettles PowerSettles b e) :
    PowerSettles b e := by
  intro hb he r h
  cases raised_of_power_eq_ok h with
  | zero _ _ hr =>
    rw [hr]
    exact Expr.settled_num 1
  | one _ _ hr =>
    rw [hr]
    exact hb
  | number _ _ q _ hr => exact settled_numberPower he hr
  | inner _ _ b' a x hb' hx hr =>
    rw [hb', Expr.settled_power_iff] at hb
    obtain ⟨-, hb, ha⟩ := hb
    have hxs := calls.exponents b' a hb' (by simpa using ⟨ha, he⟩) x hx
    exact calls.inner b' a x hb' hx hb hxs r hr
  | factors _ _ fs rs hb' hi hrs hr =>
    rw [hb', Expr.settled_product_iff] at hb
    refine calls.factors fs rs hb' hi hrs (fun x hx => ?_) r hr
    obtain ⟨f, hf, hx⟩ := exists_of_mem_forall₂ hrs hx
    exact calls.factor fs hb' hi f hf (hb.2.2 f hf) he x hx
  | stays h0 h1 hn hp hf hr =>
    rw [hr]
    exact settled_power_of_stays hb he h0 h1 hn hp hf

/-- The product of settled expressions is settled. -/
theorem settled_product (hfs : ∀ f ∈ fs, f.IsSettled) (h : product fs = .ok r) : r.IsSettled :=
  product_induction (fun _ => productSettles_of_calls) (fun _ _ => powerSettles_of_calls) fs hfs r h

/-- A settled expression to a settled power is settled. -/
theorem settled_power (hb : b.IsSettled) (he : e.IsSettled) (h : power b e = .ok r) : r.IsSettled :=
  power_induction (fun _ => productSettles_of_calls)
    (fun _ _ => powerSettles_of_calls) b e hb he r h

/-- Merged bases of settled factors are settled. -/
theorem settled_merged (h : AreFactors fs)
    (hms : List.Forall₂ (fun g m => mergePower g = .ok m) (powersOf fs) ms) :
    ∀ m ∈ ms, m.IsSettled :=
  settled_merged_of_calls h (fun _ _ _ _ hb he _ => settled_power hb he) hms

/-! ## Products and powers that stay -/

/-- Groups of one have no merged base among them. -/
theorem hasMerged_of_groups_of_one (fs : List Expr) :
    hasMerged (fs.map fun f => (f.splitPower.1, [f.splitPower.2])) = false := by
  rw [hasMerged, List.any_map, List.any_eq_false]
  intro f _
  simp

/-- A coefficient other than one stands beside the other factors. -/
theorem perm_cons_of_coefficient_ne_one (h : Expr.ReducedProduct fs) (hg : gs ~ nonNumbers fs)
    (h1 : coefficientOf fs ≠ 1) : fs ~ num (coefficientOf fs) :: gs := by
  rcases h.eq_cons with ⟨h1', -⟩ | ⟨-, -, hcons⟩
  · exact absurd h1' h1
  · calc fs ~ num (coefficientOf fs) :: nonNumbers fs := .of_eq hcons
      _ ~ num (coefficientOf fs) :: gs := hg.symm.cons _

/-- The factors of a settled product are put together to that product. -/
theorem productOf_fixed (h : (Expr.product fs).IsSettled) (hg : gs ~ nonNumbers fs) :
    productOf (coefficientOf fs) gs = .product fs := by
  obtain ⟨hr, -, hs⟩ := Expr.settled_product_iff.mp h
  have hfs : collapse fs = .product fs := by
    rw [collapse_of_two_le hr.two_le, Expr.sort_of_pairwise hr.ordered]
  rw [productOf, if_neg hr.coefficient_ne_zero, ← hfs]
  by_cases h1 : coefficientOf fs = 1
  · rw [if_pos h1]
    rcases hr.eq_cons with ⟨-, hn⟩ | ⟨-, h1', -⟩
    · rw [Expr.nonNumbers_of_not_isNum hn] at hg
      exact (collapse_perm hs hg.symm).symm
    · exact absurd h1 h1'
  · rw [if_neg h1]
    refine (collapse_perm hs ?_).symm
    calc fs ~ num (coefficientOf fs) :: gs := perm_cons_of_coefficient_ne_one hr hg h1
      _ ~ gs ++ [num (coefficientOf fs)] := (List.perm_append_singleton _ _).symm

/-- The number of a settled product is not to be distributed. -/
theorem spread?_fixed (h : Expr.ReducedProduct fs) (hg : gs ~ nonNumbers fs) :
    spread? (coefficientOf fs) gs = none := by
  cases hspread : spread? (coefficientOf fs) gs with
  | none => rfl
  | some ts =>
    obtain ⟨rfl, -, h1⟩ := spread?_eq_some_iff.mp hspread
    exact absurd (perm_cons_of_coefficient_ne_one h hg h1) (h.not_scaled_sum _ ts)

/-- Factors with different bases stay as they are: nothing but the number in front is left to do. -/
theorem product_of_distinct (h : ∀ f ∈ fs, f.IsSettled) (hc : coefficientOf (opened fs) ≠ 0)
    (hd : HaveDistinctBases (opened fs)) :
    product fs = distribute (coefficientOf (opened fs)) (nonNumbers (opened fs)) := by
  have hgroups := powersOf_of_distinct hd
  have hnum : ∀ m ∈ nonNumbers (opened fs), m.isNum = false := fun m => Expr.isNum_of_mem_nonNumbers
  -- Every base stays the factor that it came from.
  have hms : List.Forall₂ (fun g m => mergePower g = .ok m) (powersOf (opened fs))
      (nonNumbers (opened fs)) := by
    rw [hgroups, List.forall₂_map_left_iff, List.forall₂_same]
    intro f hf
    have hf' := areFactors_opened h f (Expr.mem_of_mem_nonNumbers hf)
    exact congrArg Except.ok hf'.1.bare_splitPower
  have hmerged : ¬ (hasMerged (powersOf (opened fs)) = true ∧
      (nonNumbers (nonNumbers (opened fs))).any Expr.isProduct = true) := by
    rw [hgroups, hasMerged_of_groups_of_one]
    rintro ⟨h, -⟩
    cases h
  rw [product_eq_multiply hc hms, multiply, if_neg hmerged, Expr.coefficientOf_of_not_isNum hnum,
    mul_one, Expr.nonNumbers_of_not_isNum hnum]

/-- The factors of a settled product with different bases multiply to that product. -/
theorem product_fixed (h : (Expr.product fs).IsSettled) (hd : HaveDistinctBases fs) :
    product fs = .ok (.product fs) := by
  obtain ⟨hr, hc, hs⟩ := Expr.settled_product_iff.mp h
  have hp : opened fs ~ fs := opened_perm_self hr.not_isProduct
  have hcoef : coefficientOf (opened fs) = coefficientOf fs := Expr.coefficientOf_perm hp
  have hnon : nonNumbers (opened fs) ~ nonNumbers fs := hp.filter _
  have hd' : HaveDistinctBases (opened fs) := hd.perm (hnon.symm.map _)
  rw [product_of_distinct hs (hcoef.trans_ne hr.coefficient_ne_zero) hd', hcoef, distribute,
    spread?_fixed hr hnon]
  exact inOrder_eq_ok_iff.mpr ⟨(productOf_fixed h hnon).symm, productOf_fixed h hnon ▸ hc⟩

/-- A settled power stays as it is. -/
theorem power_fixed (h : (Expr.power b e).IsSettled) : power b e = .ok (.power b e) := by
  obtain ⟨hp, -, -⟩ := Expr.settled_power_iff.mp h
  cases hn : b.isNum with
  | true =>
    obtain ⟨q, rfl⟩ := Expr.exists_eq_num hn
    exact Raised.eq_ok (.number hp.exponent_ne_zero hp.exponent_ne_one q rfl (numberPower_fixed h))
  | false =>
    refine Raised.eq_ok (.stays hp.exponent_ne_zero hp.exponent_ne_one hn ?_ ?_ rfl)
    · rintro b' a rfl
      cases hp.not_isPower
    · intro hprod
      rw [← Bool.not_eq_true]
      intro hi
      rw [hp.not_isProduct_of_isInteger hi] at hprod
      cases hprod

/-! ## Order -/

/-- Exponents in another order make the same power of a base. -/
theorem mergePower_perm {es ds : List Expr} (hs : ∀ e ∈ es, e.IsSettled) (h : es ~ ds) :
    mergePower (b, es) = mergePower (b, ds) := by
  rcases Nat.lt_or_ge es.length 2 with hlt | hge
  · match es with
    | [] => rw [List.nil_perm.mp h]
    | [e] => rw [List.singleton_perm.mp h]
    | _ :: _ :: _ =>
      simp only [List.length_cons] at hlt
      omega
  · rw [mergePower_of_two_le hge, mergePower_of_two_le (h.length_eq ▸ hge), sum_perm hs h]

/-- Groups that hold the same exponents in another order merge to the same powers. -/
theorem merged_of_pairs {gs hs : List (Expr × List Expr)}
    (hpair : List.Forall₂ (fun g g' => g.1 = g'.1 ∧ g.2 ~ g'.2) gs hs)
    (hsettled : ∀ g ∈ gs, ∀ e ∈ g.2, e.IsSettled)
    (hms : List.Forall₂ (fun g m => mergePower g = .ok m) gs ms) :
    List.Forall₂ (fun g m => mergePower g = .ok m) hs ms := by
  induction hpair generalizing ms with
  | nil => exact hms
  | @cons g g' gs hs hgg' _ ih =>
    obtain ⟨m, ms', hm, hms', rfl⟩ := List.forall₂_cons_left_iff.mp hms
    refine .cons ?_ (ih (fun g hg => hsettled g (List.mem_cons_of_mem _ hg)) hms')
    obtain ⟨b, es⟩ := g
    obtain ⟨b', es'⟩ := g'
    obtain ⟨rfl, hes⟩ := hgg'
    rw [← mergePower_perm (hsettled _ List.mem_cons_self) hes]
    exact hm

/-- Whether some base is merged does not depend on the order of its exponents. -/
theorem hasMerged_of_pairs {gs hs : List (Expr × List Expr)}
    (hpair : List.Forall₂ (fun g g' => g.1 = g'.1 ∧ g.2 ~ g'.2) gs hs) :
    hasMerged hs = hasMerged gs := by
  induction hpair with
  | nil => rfl
  | cons hgg' _ ih =>
    unfold hasMerged at ih ⊢
    rw [List.any_cons, List.any_cons, ih, hgg'.2.length_eq]

/-- Factors in another order have merged bases in another order. -/
theorem exists_perm_merged (h : AreFactors fs) (hp : fs ~ gs)
    (hms : List.Forall₂ (fun g m => mergePower g = .ok m) (powersOf fs) ms) :
    hasMerged (powersOf gs) = hasMerged (powersOf fs) ∧
      ∃ ns, List.Forall₂ (fun g m => mergePower g = .ok m) (powersOf gs) ns ∧ ns ~ ms := by
  have hlab : (nonNumbers fs).map Expr.splitPower ~ (nonNumbers gs).map Expr.splitPower :=
    (hp.filter _).map _
  obtain ⟨hs, hperm, hpair⟩ := exists_perm_group (hasKeyedLabels_powers h) hlab
  -- Groups correspond one by one and merge to the same powers, which then come in another order.
  have hsame := merged_of_pairs hpair (fun g hg => (settled_group h hg).2) hms
  constructor
  · rw [powersOf, powersOf, ← hasMerged_of_pairs hpair]
    exact hperm.symm.any_eq
  · obtain ⟨ns, hns, hnm⟩ := List.perm_comp_forall₂ hperm.symm hsame
    exact ⟨ns, hns, hnm⟩

/-- Whether a number is distributed does not depend on the order of the factors. -/
theorem spread?_perm {l k : List Expr} {c : Rat} (h : l ~ k) : spread? c l = spread? c k := by
  -- A single sum has no other order.
  have hone : ∀ ts, l = [.sum ts] ↔ k = [.sum ts] := by
    intro ts
    constructor
    · rintro rfl
      exact (List.singleton_perm.mp h).symm
    · rintro rfl
      exact List.perm_singleton.mp h
  refine Option.ext fun ts => ?_
  rw [spread?_eq_some_iff, spread?_eq_some_iff, hone]

/-- Merged bases in another order come to the same product, if those that they expand to do. -/
theorem Multiplied.perm {c : Rat} {as bs : List (Expr × List Expr)} {ns : List Expr}
    (h : Multiplied c as ms r) (hmerged : hasMerged bs = hasMerged as) (hp : ns ~ ms)
    (hs : ∀ m ∈ nonNumbers ms, m.IsSettled)
    (hagain : Expanded as ms → ∀ q, product (nonNumbers ms ++ [num q]) = .ok r →
      product (nonNumbers ns ++ [num q]) = .ok r) : Multiplied c bs ns r := by
  have hnon : nonNumbers ms ~ nonNumbers ns := (hp.filter _).symm
  have hcoef : coefficientOf ns = coefficientOf ms := Expr.coefficientOf_perm hp
  have hexp : Expanded bs ns ↔ Expanded as ms := by
    unfold Expanded
    rw [hmerged, hnon.any_eq]
  cases h with
  | again he hr =>
    refine .again (hexp.mpr he) ?_
    rw [hcoef]
    exact hagain he _ hr
  | spread he ts rs hts h0 h1 hrs hr ho =>
    have hts' : nonNumbers ns = [.sum ts] := List.perm_singleton.mp (hts ▸ hnon.symm)
    rw [← hcoef] at h0 h1 hrs
    exact .spread (mt hexp.mp he) ts rs hts' h0 h1 hrs hr ho
  | gather he hspread hr ho =>
    rw [← hcoef, productOf_perm hs hnon] at hr ho
    rw [← hcoef, spread?_perm hnon] at hspread
    exact .gather (mt hexp.mp he) hspread hr ho

/-- The product of settled expressions does not depend on their order. -/
theorem product_perm (hfs : ∀ f ∈ fs, f.IsSettled) (hp : fs ~ gs) (h : product fs = .ok r) :
    product gs = .ok r := by
  revert hfs gs r
  -- By induction on the calls of the product; nothing is asked of powers.
  refine product_induction (P := fun fs => ∀ {gs r}, (∀ f ∈ fs, f.IsSettled) → fs ~ gs →
    product fs = .ok r → product gs = .ok r) (Q := fun _ _ => True) ?_ (fun _ _ _ => trivial) fs
  intro fs calls gs r hfs hp h
  have hos := areFactors_opened hfs
  have hperm := opened_perm hp
  have hcoef : coefficientOf (opened gs) = coefficientOf (opened fs) :=
    (Expr.coefficientOf_perm hperm).symm
  rcases merged_of_product_eq_ok h with ⟨h0, rfl⟩ | ⟨h0, ms, hms, hr⟩
  · rw [product_eq, if_pos (hcoef.trans h0)]
  obtain ⟨hmerged, ns, hns, hnm⟩ := exists_perm_merged hos hperm hms
  rw [product_eq_multiply (hcoef.trans_ne h0) hns, hcoef]
  have hsettled : ∀ m ∈ nonNumbers ms, m.IsSettled := fun m hm =>
    settled_merged hos hms m (Expr.mem_of_mem_nonNumbers hm)
  apply Multiplied.eq_ok
  refine (multiply_eq_ok hr).perm hmerged hnm hsettled fun he q hr => ?_
  exact calls.again ms hms he.1 q (Expr.settled_append_num hsettled q)
    ((hnm.filter _).symm.append_right _) hr

end StackAlgebra.Canonical
