import StackAlgebra.Proofs.Expr.Order
import Mathlib.Logic.Equiv.Fintype

/-!
# Renaming variables

`Expr.rename s` puts the name `s x` for the name `x` of each variable, and leaves everything where
it stands. The order of terms and factors may be another one for the new names; `Expr.arrange` puts
them in order again, at every depth, and `Expr.relabel` does both. Where `s` is injective,
expressions are the same exactly if they are the same under their new names (`same_relabel`). On the
variables of one expression it then acts as a permutation of names, so that it can be undone
(`exists_perm_rename`).
-/

namespace StackAlgebra.Expr

open scoped List

variable {s t : String → String} {a b e : Expr} {es ds : List Expr}

/-! ## Putting in order at every depth -/

mutual
/-- The expression with its terms and factors in order at every depth. -/
def arrange : Expr → Expr
  | num q => num q
  | const c => const c
  | var x => var x
  | sum ts => sum (sort (arrangeAll ts))
  | product fs => product (sort (arrangeAll fs))
  | power b e => power b.arrange e.arrange
  | unary f x => unary f x.arrange
  | log x b => log x.arrange b.arrange
  | mod x d => mod x.arrange d.arrange
  | angle f x m => angle f x.arrange m

/-- The expressions, each with its terms and factors in order at every depth. -/
def arrangeAll : List Expr → List Expr
  | [] => []
  | e :: es => e.arrange :: arrangeAll es
end

/-- Expressions are arranged one by one. -/
theorem arrangeAll_eq_map (es : List Expr) : arrangeAll es = es.map arrange := by
  induction es with
  | nil => rfl
  | cons e es ih => rw [arrangeAll, ih, List.map_cons]

/-- The terms of an arranged sum. -/
theorem arrange_sum (es : List Expr) : (sum es).arrange = sum (sort (es.map arrange)) := by
  rw [arrange, arrangeAll_eq_map]

/-- The factors of an arranged product. -/
theorem arrange_product (es : List Expr) :
    (product es).arrange = product (sort (es.map arrange)) := by
  rw [arrange, arrangeAll_eq_map]

/-- Expressions are matched in pairs with what a reordering makes of them, in any order. -/
theorem Reordered.pairs_map {f : Expr → Expr} (h : ∀ e ∈ es, Reordered e (f e)) :
    ∃ pairs : List (Expr × Expr), es = pairs.map Prod.fst ∧ es.map f = pairs.map Prod.snd ∧
      ∀ p ∈ pairs, Reordered p.1 p.2 := by
  refine ⟨es.map fun e => (e, f e), by simp [Function.comp_def], by simp, fun p hp => ?_⟩
  obtain ⟨e, he, rfl⟩ := List.mem_map.mp hp
  exact h e he

/-- Arranging only reorders. -/
theorem reordered_arrange (e : Expr) : Reordered e e.arrange := by
  induction e using induction_on_children with
  | step e ih =>
    cases e with
    | num q => exact .num q
    | const c => exact .const c
    | var x => exact .var x
    | sum ts =>
      obtain ⟨pairs, h1, h2, h3⟩ := Reordered.pairs_map fun t (ht : t ∈ ts) => ih t ht
      rw [arrange_sum]
      exact .sum pairs (.of_eq h1) ((perm_sort _).trans (.of_eq h2)) h3
    | product fs =>
      obtain ⟨pairs, h1, h2, h3⟩ := Reordered.pairs_map fun f (hf : f ∈ fs) => ih f hf
      rw [arrange_product]
      exact .product pairs (.of_eq h1) ((perm_sort _).trans (.of_eq h2)) h3
    | power x y => exact .power (ih x (by simp)) (ih y (by simp))
    | unary f x => exact .unary f (ih x (by simp))
    | log x y => exact .log (ih x (by simp)) (ih y (by simp))
    | mod x y => exact .mod (ih x (by simp)) (ih y (by simp))
    | angle f x m => exact .angle f m (ih x (by simp))

/-- Everything in an arranged expression stands in order. -/
theorem inOrder_arrange (e : Expr) : e.arrange.Everywhere InOrder := by
  induction e using induction_on_children with
  | step e ih =>
    have sorted {es : List Expr} (hes : ∀ x ∈ es, x ∈ e.children) :
        ∀ c ∈ sort (es.map arrange), c.Everywhere InOrder := by
      intro c hc
      obtain ⟨x, hx, rfl⟩ := List.mem_map.mp ((perm_sort _).mem_iff.mp hc)
      exact ih x (hes x hx)
    cases e with
    | num _ | const _ | var _ => exact .intro trivial (List.forall_mem_nil _)
    | sum ts =>
      rw [arrange_sum]
      exact .intro (pairwise_sort _) (sorted fun _ hx => hx)
    | product fs =>
      rw [arrange_product]
      exact .intro (pairwise_sort _) (sorted fun _ hx => hx)
    | power x y | log x y | mod x y =>
      exact .intro trivial (.pair (ih x (by simp)) (ih y (by simp)))
    | unary _ x | angle _ x _ =>
      exact .intro trivial (List.forall_mem_singleton.mpr (ih x (by simp)))

/-- What stands in order stays as it is. -/
theorem arrange_of_inOrder (h : e.Everywhere InOrder) : e.arrange = e :=
  eq_of_key_eq (inOrder_arrange e) h (reordered_arrange e).key_eq.symm

/-! ## New names -/

mutual
/-- The expression with the name `s x` for the name `x` of each variable. -/
def rename (s : String → String) : Expr → Expr
  | num q => num q
  | const c => const c
  | var x => var (s x)
  | sum ts => sum (renameAll s ts)
  | product fs => product (renameAll s fs)
  | power b e => power (b.rename s) (e.rename s)
  | unary f x => unary f (x.rename s)
  | log x b => log (x.rename s) (b.rename s)
  | mod x d => mod (x.rename s) (d.rename s)
  | angle f x m => angle f (x.rename s) m

/-- The expressions with new names for their variables. -/
def renameAll (s : String → String) : List Expr → List Expr
  | [] => []
  | e :: es => e.rename s :: renameAll s es
end

/-- Expressions get new names one by one. -/
theorem renameAll_eq_map (s : String → String) (es : List Expr) :
    renameAll s es = es.map (rename s) := by
  induction es with
  | nil => rfl
  | cons e es ih => rw [renameAll, ih, List.map_cons]

/-- The children get the new names. -/
theorem children_rename (s : String → String) (e : Expr) :
    (e.rename s).children = e.children.map (rename s) := by
  cases e with
  | sum es | product es => exact renameAll_eq_map s es
  | _ => rfl

mutual
/-- The names of the variables in an expression, from left to right. -/
def names : Expr → List String
  | num _ | const _ => []
  | var x => [x]
  | sum es | product es => namesOf es
  | power x y | log x y | mod x y => x.names ++ y.names
  | unary _ x | angle _ x _ => x.names

/-- The names of the variables in expressions, from left to right. -/
def namesOf : List Expr → List String
  | [] => []
  | e :: es => e.names ++ namesOf es
end

/-- The variables of expressions are those of each one. -/
theorem namesOf_eq_flatMap (es : List Expr) : namesOf es = es.flatMap names := by
  induction es with
  | nil => rfl
  | cons e es ih => rw [namesOf, ih, List.flatMap_cons]

/-- The variables of a child are variables of the expression. -/
theorem names_subset_of_mem_children {c : Expr} (hc : c ∈ e.children) : c.names ⊆ e.names := by
  cases e with
  | num _ | const _ | var _ => cases hc
  | sum es | product es =>
    intro x hx
    rw [names, namesOf_eq_flatMap]
    exact List.mem_flatMap.mpr ⟨c, hc, hx⟩
  | power x y | log x y | mod x y =>
    rw [names]
    rcases List.mem_pair.mp hc with rfl | rfl
    · exact List.subset_append_left _ _
    · exact List.subset_append_right _ _
  | unary _ x | angle _ x _ =>
    rw [List.mem_singleton.mp hc, names]
    exact List.Subset.refl _

/-- Names matter only where they are used. -/
theorem rename_congr (h : ∀ x ∈ e.names, s x = t x) : e.rename s = e.rename t := by
  induction e using induction_on_children with
  | step e ih =>
    have child {c : Expr} (hc : c ∈ e.children) : c.rename s = c.rename t :=
      ih c hc fun x hx => h x (names_subset_of_mem_children hc hx)
    cases e with
    | num _ | const _ => rfl
    | var x => exact congrArg var (h x (List.mem_singleton.mpr rfl))
    | sum es | product es =>
      rw [rename, rename, renameAll_eq_map, renameAll_eq_map]
      exact congrArg _ (List.map_congr_left fun _ hc => child hc)
    | power x y | log x y | mod x y =>
      rw [rename, rename, child (c := x) (by simp), child (c := y) (by simp)]
    | unary _ x | angle _ x _ => rw [rename, rename, child (c := x) (by simp)]

/-- New names for new names. -/
theorem rename_rename (s t : String → String) (e : Expr) :
    (e.rename s).rename t = e.rename (t ∘ s) := by
  induction e using induction_on_children with
  | step e ih =>
    cases e with
    | num _ | const _ | var _ => rfl
    | sum es | product es =>
      rw [rename, rename, rename, renameAll_eq_map, renameAll_eq_map, renameAll_eq_map,
        List.map_map]
      exact congrArg _ (List.map_congr_left ih)
    | power x y | log x y | mod x y => rw [rename, rename, rename, ih x (by simp), ih y (by simp)]
    | unary _ x | angle _ x _ => rw [rename, rename, rename, ih x (by simp)]

/-- The old names change nothing. -/
theorem rename_id (e : Expr) : e.rename id = e := by
  induction e using induction_on_children with
  | step e ih =>
    cases e with
    | num _ | const _ | var _ => rfl
    | sum es | product es =>
      rw [rename, renameAll_eq_map]
      exact congrArg _ ((List.map_congr_left ih).trans (List.map_id' es))
    | power x y | log x y | mod x y => rw [rename, ih x (by simp), ih y (by simp)]
    | unary _ x | angle _ x _ => rw [rename, ih x (by simp)]

/-- An expression without variables is the same under any names. -/
theorem rename_of_names_eq_nil (h : e.names = []) : e.rename s = e := by
  have hs : e.rename s = e.rename id := rename_congr fun x hx => by
    rw [h] at hx
    cases hx
  rw [hs, rename_id]

/-- On one expression, an injective renaming is one that can be undone. -/
theorem exists_perm_rename (hs : s.Injective) (e : Expr) :
    ∃ σ : Equiv.Perm String, e.rename s = e.rename σ := by
  -- The names in `e` are finitely many, and an injection on them extends to a permutation of all
  -- names.
  obtain ⟨σ, hσ⟩ :=
    Equiv.Perm.exists_extending_pair (fun x : {x // x ∈ e.names} => x.1) (fun x => s x.1)
    Subtype.val_injective (hs.comp Subtype.val_injective)
  exact ⟨σ, rename_congr fun x hx => (hσ ⟨x, hx⟩).symm⟩

/-! ## The order under new names -/

/-- Renaming keeps how expressions are matched in pairs. -/
theorem Reordered.rename (h : Reordered a b) (s : String → String) :
    Reordered (a.rename s) (b.rename s) := by
  have matched {es ds : List Expr} {pairs : List (Expr × Expr)} (hes : es ~ pairs.map Prod.fst)
      (hds : ds ~ pairs.map Prod.snd) (h : ∀ p ∈ pairs, Reordered (p.1.rename s) (p.2.rename s)) :
      ∃ qs : List (Expr × Expr), renameAll s es ~ qs.map Prod.fst ∧
      renameAll s ds ~ qs.map Prod.snd ∧
        ∀ q ∈ qs, Reordered q.1 q.2 := by
    refine ⟨pairs.map (Prod.map (Expr.rename s) (Expr.rename s)), ?_, ?_, List.forall_mem_map.mpr h⟩
    · rw [renameAll_eq_map]
      simpa [Function.comp_def] using hes.map (Expr.rename s)
    · rw [renameAll_eq_map]
      simpa [Function.comp_def] using hds.map (Expr.rename s)
  induction h with
  | num q => exact .num q
  | const c => exact .const c
  | var x => exact .var (s x)
  | sum pairs hts hus _ ih =>
    obtain ⟨qs, h1, h2, h3⟩ := matched hts hus ih
    exact .sum qs h1 h2 h3
  | product pairs hfs hgs _ ih =>
    obtain ⟨qs, h1, h2, h3⟩ := matched hfs hgs ih
    exact .product qs h1 h2 h3
  | power _ _ hb he => exact .power hb he
  | unary f _ hx => exact .unary f hx
  | log _ _ hx hb => exact .log hx hb
  | mod _ _ hx hd => exact .mod hx hd
  | angle f m _ hx => exact .angle f m hx

/-- Under injective new names, expressions have one key exactly if they had one before. -/
theorem key_rename_eq_iff (hs : s.Injective) :
    (a.rename s).key = (b.rename s).key ↔ a.key = b.key := by
  constructor
  · intro h
    obtain ⟨u, hu⟩ := hs.hasLeftInverse
    have hback := (reordered_of_key_eq h).rename u
    rwa [rename_rename, rename_rename, hu.comp_eq_id, rename_id, rename_id, ← same_iff_reordered,
      same_iff] at hback
  · exact fun h => ((reordered_of_key_eq h).rename s).key_eq

/-- The expression with new names, its terms and factors in their order. -/
def relabel (s : String → String) (e : Expr) : Expr :=
  (e.rename s).arrange

/-- Under their new names, terms and factors may stand in another order, and nothing else
changes. -/
theorem key_relabel (s : String → String) (e : Expr) : (e.relabel s).key = (e.rename s).key :=
  (reordered_arrange _).key_eq.symm

/-- Everything stands in order under the new names. -/
theorem inOrder_relabel (s : String → String) (e : Expr) : (e.relabel s).Everywhere InOrder :=
  inOrder_arrange _

/-- Expressions are the same exactly if they are the same under new names. -/
theorem same_relabel (hs : s.Injective) (a b : Expr) :
    (a.relabel s).same (b.relabel s) = a.same b := by
  rw [Bool.eq_iff_iff, same_iff, same_iff, key_relabel, key_relabel, key_rename_eq_iff hs]

/-- Without variables, what stands in order stays as it is. -/
theorem relabel_of_names_eq_nil (h : e.names = []) (ho : e.Everywhere InOrder) :
    e.relabel s = e := by
  rw [relabel, rename_of_names_eq_nil h, arrange_of_inOrder ho]

/-- A number stays. -/
@[simp] theorem relabel_num (s : String → String) (q : Rat) : (num q).relabel s = num q := rfl

/-- A constant stays. -/
@[simp] theorem relabel_const (s : String → String) (c : Constant) :
    (const c).relabel s = const c := rfl

/-- A variable is renamed. -/
@[simp] theorem relabel_var (s : String → String) (x : String) : (var x).relabel s = var (s x) :=
  rfl

/-- The terms of a sum are renamed and sorted again. -/
@[simp] theorem relabel_sum (s : String → String) (es : List Expr) :
    (sum es).relabel s = sum (sort (es.map (relabel s))) := by
  rw [relabel, rename, arrange_sum, renameAll_eq_map, List.map_map]
  rfl

/-- The factors of a product are renamed and sorted again. -/
@[simp] theorem relabel_product (s : String → String) (es : List Expr) :
    (product es).relabel s = product (sort (es.map (relabel s))) := by
  rw [relabel, rename, arrange_product, renameAll_eq_map, List.map_map]
  rfl

/-- Base and exponent of a power are renamed. -/
@[simp] theorem relabel_power (s : String → String) (b e : Expr) :
    (power b e).relabel s = power (b.relabel s) (e.relabel s) := rfl

/-- The operand of a function is renamed. -/
@[simp] theorem relabel_unary (s : String → String) (f : UnaryFunction) (x : Expr) :
    (unary f x).relabel s = unary f (x.relabel s) := rfl

/-- Argument and base of a logarithm are renamed. -/
@[simp] theorem relabel_log (s : String → String) (x b : Expr) :
    (log x b).relabel s = log (x.relabel s) (b.relabel s) := rfl

/-- Both operands of a remainder are renamed. -/
@[simp] theorem relabel_mod (s : String → String) (x d : Expr) :
    (mod x d).relabel s = mod (x.relabel s) (d.relabel s) := rfl

/-- The angle is renamed and keeps its measure. -/
@[simp] theorem relabel_angle (s : String → String) (f : AngleFunction) (x : Expr)
    (m : Option String) :
    (angle f x m).relabel s = angle f (x.relabel s) m := rfl

/-- Expressions in any order come to one row under their new names. -/
theorem sort_map_relabel_of_perm (s : String → String) (h : es ~ ds) :
    sort (es.map (relabel s)) = sort (ds.map (relabel s)) := by
  refine sort_eq_sort_of_perm (h.map _) fun e he => ?_
  obtain ⟨x, -, rfl⟩ := List.mem_map.mp he
  exact inOrder_relabel s x

end StackAlgebra.Expr
