import StackAlgebra.Proofs.Renaming.Sum
import StackAlgebra.Proofs.NormalForm.Product

/-!
# Products and powers under new names

A product or power of settled expressions comes to its relabelled result under injective new names,
unless what it comes to has no order then (`Reaches`). The two runs go in step: the same bases are
merged, the same merged bases expand, and a rational is distributed over the same sum, though in
each of these the expressions come in another order. So what is shown of a product, by the induction
over the calls of products and powers, is shown for its factors in any order (`ProductFollows`).
-/

namespace StackAlgebra

namespace Expr

variable {s : String → String}

/-- Renaming makes nothing zero. -/
@[simp] theorem isZero_relabel (s : String → String) (e : Expr) :
    (e.relabel s).isZero = e.isZero := by
  cases e <;> simp [isZero]

/-- Renaming makes nothing one. -/
@[simp] theorem isOne_relabel (s : String → String) (e : Expr) : (e.relabel s).isOne = e.isOne := by
  cases e <;> simp [isOne]

/-- Renaming makes nothing an integer. -/
@[simp] theorem isInteger_relabel (s : String → String) (e : Expr) :
    (e.relabel s).isInteger = e.isInteger := by
  cases e <;> simp [isInteger]

/-- A factor has the base and the exponent that it had, under the new names. -/
theorem splitPower_relabel (s : String → String) (e : Expr) :
    (e.relabel s).splitPower = Prod.map (relabel s) (relabel s) e.splitPower := by
  cases e with
  | sum ts => simp [splitPower]
  | product fs => simp [splitPower]
  | _ => rfl

end Expr

namespace Canonical

open StackAlgebra.Expr (num nonNumbers coefficientOf relabel)
open scoped List

/-! ## Computations that may stop for want of an order -/

section Reaches

variable {α β : Type} {x : Except Error α} {a b : α} {c : β}

/-- The computation comes to `a`, unless it stops at expressions that have no order. -/
def Reaches (x : Except Error α) (a : α) : Prop :=
  x = .ok a ∨ x = .error .incomparable

/-- What a computation comes to is what it reaches. -/
theorem Reaches.eq_of_eq_ok (h : Reaches x a) (hb : x = .ok b) : b = a := by
  rcases h with h | h
  · exact Except.ok.inj (hb.symm.trans h)
  · rw [h] at hb
    cases hb

/-- What follows on a computation reaches what it reaches from there. -/
theorem Reaches.bind {f : α → Except Error β} (h : Reaches x a) (hf : Reaches (f a) c) :
    Reaches (x >>= f) c := by
  rcases h with rfl | rfl
  · exact hf
  · exact .inr rfl

/-- Computations one after the other reach what each of them reaches. -/
theorem reaches_mapM {f : α → Except Error β} {l : List α} {rs : List β}
    (h : List.Forall₂ (fun a r => Reaches (f a) r) l rs) : Reaches (l.mapM f) rs := by
  induction h with
  | nil => exact .inl rfl
  | cons ha _ ih =>
    rw [List.mapM_cons]
    exact ha.bind (ih.bind (.inl rfl))

/-- Computations on other operands reach the results that go with them. -/
theorem reaches_mapM_map {γ δ : Type} {P : γ → δ → Prop} {f : α → Except Error β}
    {i : γ → α} {j : δ → β} {l : List γ} {qs : List δ} (h : List.Forall₂ P l qs)
    (hf : ∀ a ∈ l, ∀ q, P a q → Reaches (f (i a)) (j q)) :
    Reaches ((l.map i).mapM f) (qs.map j) := by
  refine reaches_mapM ?_
  rw [List.forall₂_map_left_iff, List.forall₂_map_right_iff]
  exact forall₂_imp_of_mem h hf

/-- An expression is put in order, unless it has none. -/
theorem reaches_inOrder (e : Expr) : Reaches (inOrder e) e := by
  unfold inOrder
  split_ifs
  · exact .inl rfl
  · exact .inr rfl

end Reaches

variable {s : String → String} {fs gs ms ns : List Expr} {b e r : Expr}

/-! ## Factors -/

mutual
/-- The factors of an expression, nested products opened, come in the order of the new names. -/
theorem multiplicands_relabel (s : String → String) (e : Expr) :
    multiplicands (e.relabel s) ~ (multiplicands e).map (relabel s) := by
  cases e with
  | product fs =>
    rw [Expr.relabel_product, multiplicands, multiplicands, multiplicandsOf_eq_flatMap]
    refine ((Expr.perm_sort _).flatMap_right _).trans ?_
    rw [← multiplicandsOf_eq_flatMap]
    exact multiplicandsOf_relabel s fs
  | sum ts => simp [multiplicands]
  | _ => exact .refl _

/-- The factors of expressions, nested products opened, come in the order of the new names. -/
theorem multiplicandsOf_relabel (s : String → String) (es : List Expr) :
    multiplicandsOf (es.map (relabel s)) ~ (multiplicandsOf es).map (relabel s) := by
  cases es with
  | nil => exact .refl _
  | cons e es =>
    rw [List.map_cons, multiplicandsOf, multiplicandsOf, List.map_append]
    exact (multiplicands_relabel s e).append (multiplicandsOf_relabel s es)
end

/-- The opened factors come in the order of the new names. -/
theorem opened_relabel (s : String → String) (fs : List Expr) :
    opened (fs.map (relabel s)) ~ (opened fs).map (relabel s) :=
  (List.reverse_perm _).trans
    ((multiplicandsOf_relabel s fs).trans ((List.reverse_perm _).symm.map _))

/-- Relabelled factors have relabelled bases, each with its exponents relabelled. -/
theorem powersOf_relabel (hs : s.Injective) (fs : List Expr) :
    powersOf (fs.map (relabel s)) =
      (powersOf fs).map (Prod.map (relabel s) (List.map (relabel s))) := by
  rw [powersOf, Expr.nonNumbers_relabel, powersOf, ← group_relabel hs, List.map_map, List.map_map]
  exact congrArg group (List.map_congr_left fun f _ => Expr.splitPower_relabel s f)

/-- As many bases are merged as before. -/
theorem hasMerged_relabel (s : String → String) (gs : List (Expr × List Expr)) :
    hasMerged (gs.map (Prod.map (relabel s) (List.map (relabel s)))) = hasMerged gs := by
  simp [hasMerged, List.any_map, Function.comp_def]

/-- A base that occurs once stays the factor that it came from. -/
theorem bare_relabel (s : String → String) (b e : Expr) :
    bare (b.relabel s) (e.relabel s) = (bare b e).relabel s := by
  rw [bare, Expr.isOne_relabel, bare]
  split_ifs <;> rfl

/-- Merged factors make the relabelled product. -/
theorem collapse_relabel (s : String → String) (fs : List Expr) :
    collapse (fs.map (relabel s)) = (collapse fs).relabel s := by
  match fs with
  | [] => rfl
  | [f] => rfl
  | f :: g :: fs =>
    rw [collapse_of_two_le (by simp), collapse_of_two_le (by simp), Expr.relabel_product,
      Expr.sort_map_relabel_of_perm s (Expr.perm_sort (f :: g :: fs))]

/-- A rational and merged factors make the relabelled product. -/
theorem productOf_relabel (s : String → String) (c : Rat) (fs : List Expr) :
    productOf c (fs.map (relabel s)) = (productOf c fs).relabel s := by
  unfold productOf
  split_ifs
  · rfl
  · exact collapse_relabel s fs
  · rw [← collapse_relabel, List.map_append]
    rfl

/-- Nothing is distributed that was not distributed before. -/
theorem spread?_relabel_eq_none {c : Rat} (h : spread? c fs = none) :
    spread? c (fs.map (relabel s)) = none := by
  cases hs : spread? c (fs.map (relabel s)) with
  | none => rfl
  | some us =>
    obtain ⟨hfs, h0, h1⟩ := spread?_eq_some_iff.mp hs
    obtain ⟨f, rfl, hf⟩ := List.map_eq_singleton_iff.mp hfs
    cases f with
    | sum ts =>
      rw [spread?_eq_some_iff.mpr ⟨rfl, h0, h1⟩] at h
      cases h
    | product fs =>
      rw [Expr.relabel_product] at hf
      cases hf
    | _ => cases hf

/-! ## Products -/

/-- The product of settled expressions, in any order, comes to its relabelled result under new
names. -/
def ProductFollows (s : String → String) (fs : List Expr) : Prop :=
  (∀ f ∈ fs, f.IsSettled) → ∀ gs r, gs ~ fs → product fs = .ok r →
    Reaches (product (gs.map (relabel s))) (r.relabel s)

/-- The power of settled expressions comes to its relabelled result under new names. -/
def PowerFollows (s : String → String) (b e : Expr) : Prop :=
  b.IsSettled → e.IsSettled → ∀ r, power b e = .ok r →
    Reaches (power (b.relabel s) (e.relabel s)) (r.relabel s)

/-- Factors in another order have the same bases, each with its exponents in another order. -/
theorem exists_mem_powersOf_of_perm (h : AreFactors fs) (hp : gs ~ fs) {g : Expr × List Expr}
    (hg : g ∈ powersOf gs) :
    ∃ es, (g.1, es) ∈ powersOf fs ∧ es ~ g.2 := by
  have hlab : (nonNumbers fs).map Expr.splitPower ~ (nonNumbers gs).map Expr.splitPower :=
    (hp.symm.filter _).map _
  obtain ⟨hs, hperm, hpair⟩ := exists_perm_group (hasKeyedLabels_powers h) hlab
  obtain ⟨g', hg', heq, hes⟩ := exists_of_mem_forall₂ hpair (hperm.mem_iff.mpr hg)
  exact ⟨g'.2, heq ▸ hg', hes⟩

/-- A merged base comes to its relabelled power. -/
theorem reaches_mergePower (hs : s.Injective) {g : Expr × List Expr} {m : Expr} (hb : g.1.IsSettled)
    (hes : ∀ e ∈ g.2, e.IsSettled) (hg : 1 ≤ g.2.length)
    (calls : 2 ≤ g.2.length → PowerFollows s g.1 (sum g.2)) (hm : mergePower g = .ok m) :
    Reaches (mergePower (Prod.map (relabel s) (List.map (relabel s)) g)) (m.relabel s) := by
  obtain ⟨b, es⟩ := g
  rcases Nat.lt_or_ge es.length 2 with hlt | hge
  · obtain ⟨e, rfl⟩ : ∃ e, es = [e] := List.length_eq_one_iff.mp (by simp only at hg; omega)
    rw [← Except.ok.inj hm, ← bare_relabel]
    exact .inl rfl
  · rw [mergePower_of_two_le hge] at hm
    obtain ⟨x, hx, hm⟩ := bind_eq_ok_iff.mp hm
    obtain ⟨rfl, ho⟩ := inOrder_eq_ok_iff.mp hx
    rw [Prod.map, mergePower_of_two_le (by rwa [List.length_map]), sum_relabel hs hes]
    exact (reaches_inOrder _).bind (calls hge hb (settled_sum hes ho) m hm)

/-- What a product may use of those that it asks for, once bases are merged to `ms`. -/
structure MultiplyCalls (s : String → String) (gs : List (Expr × List Expr)) (ms : List Expr) :
    Prop where
  /-- Merged bases multiply once more. -/
  again : hasMerged gs = true → ∀ c, ProductFollows s (nonNumbers ms ++ [num c])
  /-- A number is distributed over a sum. -/
  spread : ∀ ts, nonNumbers ms = [.sum ts] → ∀ c, ∀ t ∈ ts, ProductFollows s [num c, t]

/-- A rational is distributed over the relabelled terms of a sum. -/
theorem reaches_distribute (hs : s.Injective) {c : Rat} {ts rs : List Expr}
    (hts : (Expr.sum ts).IsSettled) (calls : ∀ t ∈ ts, ProductFollows s [num c, t]) (h0 : c ≠ 0)
    (h1 : c ≠ 1) (hrs : List.Forall₂ (fun t r => product [num c, t] = .ok r) ts rs) :
    Reaches (distribute c [(Expr.sum ts).relabel s]) ((sum rs).relabel s) := by
  have hsettled : ∀ t ∈ ts, ∀ f ∈ [num c, t], f.IsSettled := fun t ht => by
    simpa using ⟨Expr.settled_num c, (Expr.settled_sum_iff.mp hts).2.2 t ht⟩
  -- The terms stand in another order, and the products come in that order.
  obtain ⟨us, hus, hp⟩ := exists_perm_of_perm_map (Expr.perm_sort (ts.map (relabel s)))
  obtain ⟨qs, hqs, hqr⟩ := List.perm_comp_forall₂ hp hrs
  have hq : ∀ q ∈ qs, q.IsSettled := by
    intro q hq
    obtain ⟨u, hu, huq⟩ := exists_of_mem_forall₂ hqs hq
    exact settled_product (hsettled u (hp.mem_iff.mp hu)) huq
  have hmap : Reaches ((us.map (relabel s)).mapM fun t => product [num c, t])
      (qs.map (relabel s)) := by
    refine reaches_mapM_map hqs fun u hu q huq => ?_
    have hu' := hp.mem_iff.mp hu
    exact calls u hu' (hsettled u hu') [num c, u] q (.refl _) huq
  rw [Expr.relabel_sum, hus, distribute, spread?_eq_some_iff.mpr ⟨rfl, h0, h1⟩]
  refine hmap.bind ?_
  rw [sum_relabel hs hq, sum_perm hq hqr]
  exact reaches_inOrder _

/-- Merged bases, in any order, multiply to the relabelled product. -/
theorem reaches_multiply (hs : s.Injective) {c : Rat} {as bs : List (Expr × List Expr)}
    (hms : ∀ m ∈ nonNumbers ms, m.IsSettled) (calls : MultiplyCalls s as ms)
    (h : Multiplied c as ms r) (hmerged : hasMerged bs = hasMerged as) (hp : ns ~ ms) :
    Reaches (multiply c bs (ns.map (relabel s))) (r.relabel s) := by
  have hnon : nonNumbers ns ~ nonNumbers ms := hp.filter _
  have hexp : hasMerged bs = true ∧ (nonNumbers (ns.map (relabel s))).any Expr.isProduct = true ↔
      Expanded as ms := by
    rw [Expanded, hmerged, Expr.nonNumbers_relabel, ← hnon.any_eq, List.any_map]
    simp [Function.comp_def]
  rw [multiply, Expr.nonNumbers_relabel, Expr.coefficientOf_relabel, Expr.coefficientOf_perm hp]
  rw [Expr.nonNumbers_relabel] at hexp
  cases h with
  | again he hr =>
    rw [if_pos (hexp.mpr he)]
    have hcall := calls.again he.1 _ (Expr.settled_append_num hms _) _ r (hnon.append_right _) hr
    rwa [List.map_append] at hcall
  | spread he ts rs hts h0 h1 hrs hr ho =>
    have hts' : nonNumbers ns = [.sum ts] := List.perm_singleton.mp (hts ▸ hnon)
    have hsum : (Expr.sum ts).IsSettled := hms _ (by rw [hts]; exact List.mem_singleton.mpr rfl)
    rw [if_neg (mt hexp.mp he), hts', hr]
    exact reaches_distribute hs hsum (calls.spread ts hts _) h0 h1 hrs
  | gather he hspread hr ho =>
    rw [if_neg (mt hexp.mp he), distribute, spread?_relabel_eq_none (spread?_perm hnon ▸ hspread),
      hr, productOf_relabel, productOf_perm hms hnon.symm]
    exact reaches_inOrder _

/-- A product comes to its relabelled result if its calls do. -/
theorem productFollows_of_calls (hs : s.Injective)
    (calls : ProductCalls (ProductFollows s) (PowerFollows s) fs) :
    ProductFollows s fs := by
  intro hfs gs r hp h
  have hfactors := areFactors_opened hfs
  -- The opened factors are those that there were, in another order.
  obtain ⟨os, hos, hperm⟩ :=
    exists_perm_of_perm_map ((opened_perm (hp.map _)).trans (opened_relabel s fs))
  have hcoef : coefficientOf (opened (gs.map (relabel s))) = coefficientOf (opened fs) := by
    rw [hos, Expr.coefficientOf_relabel, Expr.coefficientOf_perm hperm]
  rcases merged_of_product_eq_ok h with ⟨h0, rfl⟩ | ⟨h0, ms, hms, hr⟩
  · rw [product_eq, if_pos (hcoef.trans h0)]
    exact .inl rfl
  obtain ⟨hmerged, ns, hns, hnm⟩ := exists_perm_merged hfactors hperm.symm hms
  rw [product_eq, if_neg (hcoef.trans_ne h0), hcoef, hos, powersOf_relabel hs]
  have hmerge : Reaches
      (((powersOf os).map (Prod.map (relabel s) (List.map (relabel s)))).mapM mergePower)
      (ns.map (relabel s)) := by
    refine reaches_mapM_map hns fun g hg m hm => ?_
    have hos' : AreFactors os := fun f hf => hfactors f (hperm.mem_iff.mp hf)
    obtain ⟨hb, hes⟩ := settled_group hos' hg
    refine reaches_mergePower hs hb hes (length_mem_group g hg) (fun hlen => ?_) hm
    -- The group is one that the product has, and its exponents have the same sum.
    obtain ⟨es, hmem, hperm'⟩ := exists_mem_powersOf_of_perm hfactors hperm hg
    rw [← sum_perm (settled_group hfactors hmem).2 hperm']
    exact calls.merged g.1 es hmem (hperm'.length_eq ▸ hlen)
  refine hmerge.bind (reaches_multiply hs (fun m hm => ?_) ⟨fun hm => ?_, fun ts hts => ?_⟩
      (multiply_eq_ok hr) ?_ hnm)
  · exact settled_merged hfactors hms m (Expr.mem_of_mem_nonNumbers hm)
  · exact calls.again ms hms hm
  · exact calls.spread ms hms ts hts
  · rw [hasMerged_relabel, hmerged]

/-! ## Powers -/

/-- The power of a number is the relabelled power to the relabelled exponent. -/
theorem numberPower_relabel {q : Rat} (h : numberPower q e = .ok r) :
    numberPower q (e.relabel s) = .ok (r.relabel s) := by
  cases hn : e.isNum with
  | true =>
    -- There are no names in what comes of numbers alone.
    obtain ⟨f, rfl⟩ := Expr.exists_eq_num hn
    rw [Expr.relabel_num, h]
    cases numberPower_eq_ok h with
    | number p hr => rw [hr, Expr.relabel_num]
    | stays _ hn _ => cases hn
    | root f c _ _ _ hr _ =>
      rw [hr, ← term_relabel, Expr.relabel_power, Expr.relabel_num, Expr.relabel_num]
  | false =>
    by_cases h1 : q = 1
    · have hone (x : Expr) : numberPower q x = .ok (num 1) := by
        unfold numberPower
        rw [if_pos h1]
      rw [hone] at h ⊢
      rw [← Except.ok.inj h, Expr.relabel_num]
    · rw [numberPower_of_not_isNum h1 hn] at h
      rw [numberPower_of_not_isNum h1 (by simpa using hn), ← Except.ok.inj h]
      rfl

/-- A power comes to its relabelled result if its calls do. -/
theorem powerFollows_of_calls (calls : PowerCalls (ProductFollows s) (PowerFollows s) b e) :
    PowerFollows s b e := by
  intro hb he r h
  have reach {x : Expr} (h : Raised (b.relabel s) (e.relabel s) x) :
      Reaches (power (b.relabel s) (e.relabel s)) x := .inl h.eq_ok
  cases raised_of_power_eq_ok h with
  | zero h0 hz hr =>
    rw [hr]
    exact reach (.zero (by simpa using h0) (by simpa using hz) rfl)
  | one h0 h1 hr =>
    rw [hr]
    exact reach (.one (by simpa using h0) (by simpa using h1) rfl)
  | number h0 h1 q hq hr =>
    subst hq
    exact reach (.number (by simpa using h0) (by simpa using h1) q rfl (numberPower_relabel hr))
  | inner h0 h1 b' a x hb' hx hr =>
    subst hb'
    obtain ⟨-, hbs, has⟩ := Expr.settled_power_iff.mp hb
    have hpair : ∀ f ∈ [a, e], f.IsSettled := by simpa using ⟨has, he⟩
    have hexp := calls.exponents b' a rfl hpair [a, e] x (.refl _) hx
    have hinner := calls.inner b' a x rfl hx hbs (settled_product hpair hx) r hr
    rw [power_eq, Expr.isZero_relabel, h0, if_neg Bool.false_ne_true, Expr.isOne_relabel, h1,
      if_neg Bool.false_ne_true]
    exact hexp.bind hinner
  | factors h0 h1 fs rs hb' hi hrs hr =>
    subst hb'
    have hfs := (Expr.settled_product_iff.mp hb).2.2
    have hsettled : ∀ x ∈ rs, x.IsSettled := by
      intro x hx
      obtain ⟨f, hf, hfx⟩ := exists_of_mem_forall₂ hrs hx
      exact settled_power (hfs f hf) he hfx
    -- The factors stand in another order, and their powers come in that order.
    obtain ⟨gs, hgs, hp⟩ := exists_perm_of_perm_map (Expr.perm_sort (fs.map (relabel s)))
    obtain ⟨qs, hqs, hqr⟩ := List.perm_comp_forall₂ hp hrs
    have hmap : Reaches ((gs.map (relabel s)).mapM fun f => power f (e.relabel s))
        (qs.map (relabel s)) := by
      refine reaches_mapM_map hqs fun g hg q hgq => ?_
      have hg' := hp.mem_iff.mp hg
      exact calls.factor fs rfl hi g hg' (hfs g hg') he q hgq
    rw [power_eq, Expr.isZero_relabel, h0, if_neg Bool.false_ne_true, Expr.isOne_relabel, h1,
      if_neg Bool.false_ne_true, Expr.relabel_product, hgs]
    simp only [Expr.isInteger_relabel, hi, if_true]
    exact hmap.bind (calls.factors fs rs rfl hi hrs hsettled qs r hqr hr)
  | stays h0 h1 hn hp hf hr =>
    rw [hr]
    refine reach (.stays (by simpa using h0) (by simpa using h1) (by simpa using hn) ?_
        (by simpa using hf) rfl)
    intro b' a hb'
    cases b with
    | power c d => exact hp c d rfl
    | sum ts =>
      rw [Expr.relabel_sum] at hb'
      cases hb'
    | product fs =>
      rw [Expr.relabel_product] at hb'
      cases hb'
    | _ => cases hb'

/-- The product of settled expressions comes to its relabelled result under injective new names. -/
theorem reaches_product (hs : s.Injective) (hfs : ∀ f ∈ fs, f.IsSettled) (h : product fs = .ok r) :
    Reaches (product (fs.map (relabel s))) (r.relabel s) :=
  product_induction (fun _ => productFollows_of_calls hs) (fun _ _ => powerFollows_of_calls)
    fs hfs fs r (.refl _) h

/-- The power of settled expressions comes to its relabelled result under injective new names. -/
theorem reaches_power (hs : s.Injective) (hb : b.IsSettled) (he : e.IsSettled)
    (h : power b e = .ok r) :
    Reaches (power (b.relabel s) (e.relabel s)) (r.relabel s) :=
  power_induction (fun _ => productFollows_of_calls hs)
    (fun _ _ => powerFollows_of_calls) b e hb he r h

end Canonical
end StackAlgebra
