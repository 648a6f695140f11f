/-!
# Mapping with a guarantee

`traverse` maps a list through a function that may fail and that proves something of each result.
The function may use that its argument is in the list, so recursion through `traverse` is well
founded. `map_val_traverse` says that without the proofs it is `List.mapM`.
-/

namespace StackAlgebra.Canonical

/-- `R` relates two lists element by element. -/
inductive Pointwise {α β : Type} (R : α → β → Prop) : List α → List β → Prop where
  | nil : Pointwise R [] []
  | cons {a : α} {b : β} {as : List α} {bs : List β} :
      R a b → Pointwise R as bs → Pointwise R (a :: as) (b :: bs)

/-- Map the elements from left to right, up to the first failure. -/
def traverse {α β ε : Type} {R : α → β → Prop} :
    (l : List α) → ((a : α) → a ∈ l → Except ε {b : β // R a b}) →
      Except ε {bs : List β // Pointwise R l bs}
  | [], _ => .ok ⟨[], .nil⟩
  | a :: as, f =>
    match f a List.mem_cons_self with
    | .error e => .error e
    | .ok ⟨b, hb⟩ =>
      match traverse as fun x hx => f x (List.mem_cons_of_mem a hx) with
      | .error e => .error e
      | .ok ⟨bs, hbs⟩ => .ok ⟨b :: bs, .cons hb hbs⟩

/-- Without the relation to the elements it is the usual traversal. -/
theorem map_val_traverse {α β ε : Type} {R : α → β → Prop} (l : List α)
    (f : (a : α) → a ∈ l → Except ε {b : β // R a b}) (g : α → Except ε β)
    (h : ∀ a ha, Subtype.val <$> f a ha = g a) : Subtype.val <$> traverse l f = l.mapM g := by
  induction l with
  | nil => rfl
  | cons a as ih =>
    have hg := h a List.mem_cons_self
    have ih := ih (fun x hx => f x (List.mem_cons_of_mem a hx)) fun x hx => h x _
    rw [List.mapM_cons, ← hg, ← ih, traverse]
    cases f a List.mem_cons_self with
    | error e => rfl
    | ok b =>
      generalize (traverse as fun x hx => f x (List.mem_cons_of_mem a hx)) = rest
      cases rest <;> rfl

end StackAlgebra.Canonical
