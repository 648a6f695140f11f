import StackAlgebra.Canonical.Measure

/-!
# Grouping by expression

Like terms and equal bases are gathered by `group`: one group for each expression, in the order of
first appearance, holding what came with it in the order in which it came. Opening a group costs
what its first member costs; `cost_group_le` says that grouping never raises the cost.
-/

namespace StackAlgebra.Canonical

/-- Add `a` to the group of the expression `e`, or open one at the end. -/
def addTo {α : Type} (e : Expr) (a : α) : List (Expr × List α) → List (Expr × List α)
  | [] => [(e, [a])]
  | (b, as) :: gs => if b.same e then (b, as ++ [a]) :: gs else (b, as) :: addTo e a gs

/-- The groups of a list of labelled values. -/
def group {α : Type} (l : List (Expr × α)) : List (Expr × List α) :=
  l.foldl (fun gs x => addTo x.1 x.2 gs) []

/-- A cost summed over a list. -/
def costOf {β : Type} (f : β → Nat) : List β → Nat
  | [] => 0
  | x :: xs => f x + costOf f xs

/-- The cost of a group: `f` of its expression, and one for each member after the first. -/
def groupCost {α : Type} (f : Expr → Nat) (g : Expr × List α) : Nat :=
  f g.1 + (g.2.length - 1)

/-- Adding to a group costs no more than the expression of the group. -/
theorem cost_addTo_le {α : Type} (f : Expr → Nat) (e : Expr) (a : α) (gs : List (Expr × List α))
    (he : 1 ≤ f e) : costOf (groupCost f) (addTo e a gs) ≤ costOf (groupCost f) gs + f e := by
  induction gs with
  | nil => simp [addTo, costOf, groupCost]
  | cons g gs ih =>
    obtain ⟨b, as⟩ := g
    simp only [addTo]
    split
    · simp only [costOf, groupCost, List.length_append, List.length_cons, List.length_nil]
      omega
    · simp only [costOf]
      omega

/-- Adding labelled values to groups costs no more than their labels. -/
theorem cost_foldl_le {α : Type} (f : Expr → Nat) (l : List (Expr × α)) (gs : List (Expr × List α))
    (hl : ∀ x ∈ l, 1 ≤ f x.1) :
    costOf (groupCost f) (l.foldl (fun gs x => addTo x.1 x.2 gs) gs) ≤
      costOf (groupCost f) gs + costOf (fun x => f x.1) l := by
  induction l generalizing gs with
  | nil => simp [costOf]
  | cons x xs ih =>
    have h := ih (addTo x.1 x.2 gs) fun y hy => hl y (List.mem_cons_of_mem _ hy)
    have := cost_addTo_le f x.1 x.2 gs (hl x List.mem_cons_self)
    simp only [List.foldl_cons, costOf]
    omega

/-- Grouping costs no more than the members, if each costs at least one. -/
theorem cost_group_le {α : Type} (f : Expr → Nat) (l : List (Expr × α)) (hl : ∀ x ∈ l, 1 ≤ f x.1) :
    costOf (groupCost f) (group l) ≤ costOf (fun x => f x.1) l := by
  have := cost_foldl_le f l [] hl
  simpa [group, costOf] using this

/-- The expressions of the groups cost no more than those of the members. -/
theorem cost_labels_addTo_le {α : Type} (f : Expr → Nat) (e : Expr) (a : α)
    (gs : List (Expr × List α)) :
    costOf (fun g => f g.1) (addTo e a gs) ≤ costOf (fun g => f g.1) gs + f e := by
  induction gs with
  | nil => simp [addTo, costOf]
  | cons g gs ih =>
    simp only [addTo]
    split
    · simp only [costOf]
      omega
    · simp only [costOf]
      omega

/-- The labels of the groups cost no more than those of the values. -/
theorem cost_labels_group_le {α : Type} (f : Expr → Nat) (l : List (Expr × α)) :
    costOf (fun g => f g.1) (group l) ≤ costOf (fun x => f x.1) l := by
  have : ∀ gs : List (Expr × List α),
      costOf (fun g => f g.1) (l.foldl (fun gs x => addTo x.1 x.2 gs) gs) ≤
        costOf (fun g => f g.1) gs + costOf (fun x => f x.1) l := by
    induction l with
    | nil => simp [costOf]
    | cons x xs ih =>
      intro gs
      have h := ih (addTo x.1 x.2 gs)
      have := cost_labels_addTo_le f x.1 x.2 gs
      simp only [List.foldl_cons, costOf]
      omega
  simpa [group, costOf] using this []

/-! ## Members -/

/-- Every group is labelled by a member's expression, and holds only members' values. -/
theorem mem_addTo {α : Type} {e : Expr} {a : α} {gs : List (Expr × List α)} {g : Expr × List α}
    (h : g ∈ addTo e a gs) :
    (g.1 = e ∨ ∃ g' ∈ gs, g.1 = g'.1) ∧ ∀ x ∈ g.2, x = a ∨ ∃ g' ∈ gs, x ∈ g'.2 := by
  induction gs with
  | nil =>
    simp only [addTo, List.mem_singleton] at h
    subst h
    simp
  | cons g' gs ih =>
    obtain ⟨b, as⟩ := g'
    simp only [addTo] at h
    split at h
    · rcases List.mem_cons.mp h with rfl | h
      · refine ⟨.inr ⟨(b, as), List.mem_cons_self, rfl⟩, fun x hx => ?_⟩
        rcases List.mem_append.mp hx with hx | hx
        · exact .inr ⟨(b, as), List.mem_cons_self, hx⟩
        · exact .inl (List.mem_singleton.mp hx)
      · exact ⟨.inr ⟨g, List.mem_cons_of_mem _ h, rfl⟩,
          fun x hx => .inr ⟨g, List.mem_cons_of_mem _ h, hx⟩⟩
    · rcases List.mem_cons.mp h with rfl | h
      · exact ⟨.inr ⟨(b, as), List.mem_cons_self, rfl⟩,
          fun x hx => .inr ⟨(b, as), List.mem_cons_self, hx⟩⟩
      · obtain ⟨h₁, h₂⟩ := ih h
        refine ⟨h₁.imp_right fun ⟨g', m, e⟩ => ⟨g', List.mem_cons_of_mem _ m, e⟩, fun x hx => ?_⟩
        exact (h₂ x hx).imp_right fun ⟨g', m, e⟩ => ⟨g', List.mem_cons_of_mem _ m, e⟩

/-- Labels and members of groups come from the values added or from the groups before. -/
theorem mem_foldl_addTo {α : Type} {l : List (Expr × α)} {gs : List (Expr × List α)}
    {g : Expr × List α} (h : g ∈ l.foldl (fun gs x => addTo x.1 x.2 gs) gs) :
    ((∃ x ∈ l, g.1 = x.1) ∨ ∃ g' ∈ gs, g.1 = g'.1) ∧
      ∀ a ∈ g.2, (∃ x ∈ l, a = x.2) ∨ ∃ g' ∈ gs, a ∈ g'.2 := by
  induction l generalizing gs with
  | nil => exact ⟨.inr ⟨g, h, rfl⟩, fun a ha => .inr ⟨g, h, ha⟩⟩
  | cons x xs ih =>
    obtain ⟨h₁, h₂⟩ := ih h
    constructor
    · rcases h₁ with ⟨y, hy, e⟩ | ⟨g', hg', e⟩
      · exact .inl ⟨y, List.mem_cons_of_mem _ hy, e⟩
      · rcases (mem_addTo hg').1 with e' | ⟨g'', m, e'⟩
        · exact .inl ⟨x, List.mem_cons_self, e.trans e'⟩
        · exact .inr ⟨g'', m, e.trans e'⟩
    · intro a ha
      rcases h₂ a ha with ⟨y, hy, e⟩ | ⟨g', hg', e⟩
      · exact .inl ⟨y, List.mem_cons_of_mem _ hy, e⟩
      · rcases (mem_addTo hg').2 a e with e' | ⟨g'', m, e'⟩
        · exact .inl ⟨x, List.mem_cons_self, e'⟩
        · exact .inr ⟨g'', m, e'⟩

/-- The label of a group is that of some value. -/
theorem label_mem_group {α : Type} {l : List (Expr × α)} {g : Expr × List α} (h : g ∈ group l) :
    ∃ x ∈ l, g.1 = x.1 := by
  simpa using (mem_foldl_addTo h).1

/-- A member of a group is one of the values. -/
theorem value_mem_group {α : Type} {l : List (Expr × α)} {g : Expr × List α} (h : g ∈ group l)
    {a : α} (ha : a ∈ g.2) : ∃ x ∈ l, a = x.2 := by
  simpa using (mem_foldl_addTo h).2 a ha

/-- No group is empty after a value is added. -/
theorem length_mem_addTo {α : Type} {e : Expr} {a : α} {gs : List (Expr × List α)}
    (h : ∀ g ∈ gs, 1 ≤ g.2.length) : ∀ g ∈ addTo e a gs, 1 ≤ g.2.length := by
  induction gs with
  | nil => simp [addTo]
  | cons g gs ih =>
    intro x hx
    simp only [addTo] at hx
    split at hx
    · rcases List.mem_cons.mp hx with rfl | hx
      · simp
      · exact h x (List.mem_cons_of_mem _ hx)
    · rcases List.mem_cons.mp hx with rfl | hx
      · exact h _ List.mem_cons_self
      · exact ih (fun y hy => h y (List.mem_cons_of_mem _ hy)) x hx

/-- No group is empty. -/
theorem length_mem_group {α : Type} {l : List (Expr × α)} : ∀ g ∈ group l, 1 ≤ g.2.length := by
  have : ∀ gs : List (Expr × List α), (∀ g ∈ gs, 1 ≤ g.2.length) →
      ∀ g ∈ l.foldl (fun gs x => addTo x.1 x.2 gs) gs, 1 ≤ g.2.length := by
    induction l with
    | nil => simp
    | cons x xs ih => exact fun gs h => ih _ (length_mem_addTo h)
  exact this [] (by simp)

/-- Without values there are no groups. -/
theorem group_eq_nil {α : Type} {l : List (Expr × α)} (h : l = []) : group l = [] := by
  subst h
  rfl

end StackAlgebra.Canonical
